import EthPanel.Host.Flasher
import EthPanel.Lib.Scan

/-!
# The resync of the two ends

`read_command` of `recovery.c` shifts a window with a fill counter, `read_token` of `ota_flash.py`
slices one. Both hold the last four bytes read, so both find the first token there is and leave
what comes after it (`resync_leftmost`).
-/

namespace EthPanel

open Scan

/-- A token of four bytes is what ends a text, or is not. -/
theorem suffix_four {t s : List UInt8} (ht : t.length = 4) :
    t <:+ s ↔ 4 ≤ s.length ∧ s.drop (s.length - 4) = t := by
  rw [List.suffix_iff_eq_drop, ht]
  constructor
  · intro h
    refine ⟨?_, h.symm⟩
    have hlen := congrArg List.length h
    rw [ht, List.length_drop] at hlen
    omega
  · rintro ⟨_, h⟩
    exact h.symm

/-! ## The device -/

/-- `w` and `filled`. -/
def commandScanner : Scanner UInt8 (List UInt8 × ℕ) Magic where
  next w b := (w.1.tail ++ [b], if w.2 < 4 then w.2 + 1 else w.2)
  hit w := if w.2 = 4 then cmdMagics.find? fun m => m.bytes == w.1 else none

theorem scanCommand_eq_run (w : List UInt8) (filled : ℕ) (s : List UInt8) :
    scanCommand w filled (sent s) = match commandScanner.run (w, filled) s with
      | some (m, rest) => .got m (sent rest)
      | none => .waiting := by
  induction s generalizing w filled with
  | nil => rfl
  | cons b s ih =>
    rw [sent, List.map_cons, scanCommand, Scanner.run]
    have hnext : commandScanner.next (w, filled) b =
        (w.tail ++ [b], if filled < 4 then filled + 1 else filled) := rfl
    have hrest := ih (w.tail ++ [b]) (if filled < 4 then filled + 1 else filled)
    rw [hnext]
    generalize (if filled < 4 then filled + 1 else filled) = filled' at hrest ⊢
    have hhit : commandScanner.hit (w.tail ++ [b], filled') =
        if filled' = 4 then cmdMagics.find? fun m => m.bytes == w.tail ++ [b] else none := rfl
    rw [hhit]
    by_cases hfull : filled' = 4
    · simp only [if_pos hfull]
      cases cmdMagics.find? fun m => m.bytes == w.tail ++ [b] with
      | some m => rfl
      | none => exact hrest
    · simp only [if_neg hfull]
      exact hrest

/-- The window holds the last bytes read, after what is left of the zeros at the beginning. -/
theorem commandScanner_after (s : List UInt8) : commandScanner.after ([0, 0, 0, 0], 0) s =
    (([0, 0, 0, 0] ++ s).drop s.length, min s.length 4) := by
  induction s using List.reverseRecOn with
  | nil => rfl
  | append_singleton s b ih =>
    rw [Scanner.after_concat, ih]
    refine Prod.ext ?_ ?_
    · have hle : s.length + 1 ≤ ([0, 0, 0, 0] ++ s).length := by
        rw [List.length_append]
        show s.length + 1 ≤ 4 + s.length
        omega
      show (([0, 0, 0, 0] ++ s).drop s.length).tail ++ [b] =
        ([0, 0, 0, 0] ++ (s ++ [b])).drop (s ++ [b]).length
      rw [List.tail_drop, ← List.append_assoc [0, 0, 0, 0], List.length_append,
        List.length_singleton, List.drop_append_of_le_length hle]
    · show (if min s.length 4 < 4 then min s.length 4 + 1 else min s.length 4) =
        min (s ++ [b]).length 4
      rw [List.length_append, List.length_singleton]
      split <;> omega

theorem magic_length (m : Magic) : m.bytes.length = 4 := by cases m <;> rfl

theorem find_magic (w : List UInt8) (m : Magic) :
    (cmdMagics.find? fun m => m.bytes == w) = some m ↔ m.bytes = w := by
  constructor
  · intro h
    simpa using List.find?_some h
  · rintro rfl
    cases m <;> rfl

theorem commandScanner_spots :
    commandScanner.Spots ([0, 0, 0, 0], 0) (fun _ => True) Magic.bytes where
  hit_iff s m := by
    rw [commandScanner_after, suffix_four (magic_length m), true_and]
    show (if min s.length 4 = 4 then _ else _) = _ ↔ _
    by_cases hlen : 4 ≤ s.length
    · have hdrop : ([0, 0, 0, 0] ++ s).drop s.length = s.drop (s.length - 4) := by
        rw [List.drop_append, List.drop_eq_nil_of_le (by simpa using hlen), List.nil_append]
        rfl
      rw [if_pos (by omega), find_magic, hdrop]
      exact ⟨fun h => ⟨hlen, h.symm⟩, fun h => h.2.symm⟩
    · rw [if_neg (by omega)]
      exact ⟨(fun h => nomatch h), fun h => absurd h.1 hlen⟩
  ne_nil m _ := by cases m <;> exact List.cons_ne_nil _ _

theorem readCommand_got {s : List UInt8} {m : Magic} {rx : List Rx} :
    readCommand (sent s) = .got m rx ↔
      ∃ rest, commandScanner.run ([0, 0, 0, 0], 0) s = some (m, rest) ∧ rx = sent rest := by
  rw [readCommand, scanCommand_eq_run]
  cases commandScanner.run ([0, 0, 0, 0], 0) s with
  | none => simp
  | some r =>
    obtain ⟨m', rest'⟩ := r
    simp only [ReadResult.got.injEq, Option.some.injEq, Prod.mk.injEq]
    constructor
    · rintro ⟨rfl, rfl⟩
      exact ⟨rest', ⟨rfl, rfl⟩, rfl⟩
    · rintro ⟨rest, ⟨rfl, rfl⟩, rfl⟩
      exact ⟨rfl, rfl⟩

theorem readCommand_waiting {s : List UInt8} :
    readCommand (sent s) = .waiting ↔ commandScanner.run ([0, 0, 0, 0], 0) s = none := by
  rw [readCommand, scanCommand_eq_run]
  cases commandScanner.run ([0, 0, 0, 0], 0) s with
  | none => simp
  | some r => simp

/-! ## The host -/

/-- `window`. -/
def tokenScanner (expected : List (List UInt8)) : Scanner UInt8 (List UInt8) (List UInt8) where
  next window b := (window ++ [b]).drop ((window ++ [b]).length - 4)
  hit window := if window.length = 4 ∧ expected.contains window then some window else none

theorem tokenScanner_hit (expected : List (List UInt8)) (w : List UInt8) :
    (tokenScanner expected).hit w = if w.length = 4 ∧ w ∈ expected then some w else none := by
  show (if w.length = 4 ∧ expected.contains w = true then some w else none) = _
  simp only [List.contains_iff_mem]

theorem scanToken_eq_run (expected : List (List UInt8)) (window s : List UInt8) :
    Link.scanToken expected window s = (tokenScanner expected).run window s := by
  induction s generalizing window with
  | nil => rfl
  | cons b s ih =>
    have hnext : (tokenScanner expected).next window b =
        (window ++ [b]).drop ((window ++ [b]).length - 4) := rfl
    rw [Link.scanToken, Scanner.run, hnext, tokenScanner_hit]
    split
    · rfl
    · exact ih _

/-- The window holds the last bytes read, at most four. -/
theorem tokenScanner_after (expected : List (List UInt8)) (s : List UInt8) :
    (tokenScanner expected).after [] s = s.drop (s.length - 4) := by
  induction s using List.reverseRecOn with
  | nil => rfl
  | append_singleton s b ih =>
    rw [Scanner.after_concat, ih]
    show (s.drop (s.length - 4) ++ [b]).drop ((s.drop (s.length - 4) ++ [b]).length - 4) = _
    rw [← List.drop_append_of_le_length (by omega), List.drop_drop]
    congr 1
    simp only [List.length_append, List.length_drop, List.length_singleton]
    omega

theorem tokenScanner_spots (expected : List (List UInt8)) :
    (tokenScanner expected).Spots [] (fun t => t ∈ expected ∧ t.length = 4) id where
  hit_iff s t := by
    rw [tokenScanner_after, tokenScanner_hit]
    show _ ↔ (t ∈ expected ∧ t.length = 4) ∧ t <:+ s
    have hlast : (s.drop (s.length - 4)).length = 4 ↔ 4 ≤ s.length := by
      rw [List.length_drop]
      omega
    constructor
    · intro h
      split at h
      · rename_i hw
        obtain rfl := Option.some.inj h
        exact ⟨⟨hw.2, hw.1⟩, (suffix_four hw.1).mpr ⟨hlast.mp hw.1, rfl⟩⟩
      · cases h
    · rintro ⟨⟨hmem, hlen⟩, hsuf⟩
      obtain ⟨hle, hdrop⟩ := (suffix_four hlen).mp hsuf
      rw [hdrop, if_pos ⟨hlen, hmem⟩]
  ne_nil t ht := List.ne_nil_of_length_eq_add_one (n := 3) ht.2

theorem readToken_got {expected : List (List UInt8)} {k k' : Link} {t : List UInt8} :
    k.readToken expected = .ok (t, k') ↔ ∃ rest,
      (tokenScanner expected).run [] k.inbox = some (t, rest) ∧ k' = { k with inbox := rest } := by
  rw [Link.readToken, scanToken_eq_run]
  cases (tokenScanner expected).run [] k.inbox with
  | none => simp
  | some r =>
    obtain ⟨t', rest'⟩ := r
    simp only [Except.ok.injEq, Option.some.injEq, Prod.mk.injEq]
    constructor
    · rintro ⟨rfl, rfl⟩
      exact ⟨rest', ⟨rfl, rfl⟩, rfl⟩
    · rintro ⟨rest, ⟨rfl, rfl⟩, rfl⟩
      exact ⟨rfl, rfl⟩

/-! ## Both -/

/-- The tokens that `read_token` can return. -/
def Awaited (expected : List (List UInt8)) (t : List UInt8) : Prop := t ∈ expected ∧ t.length = 4

/-- **Both ends find the first token, and read no further.** What is read up to it is the shortest
beginning of the stream that ends with one of the tokens; if there is none they go on. Junk before a
token makes no difference, if no token ends before this one does. -/
theorem resync_leftmost :
    (∀ s m rx, readCommand (sent s) = .got m rx ↔
      ∃ read rest, Leftmost (fun _ => True) Magic.bytes s read m rest ∧ rx = sent rest) ∧
    (∀ s, readCommand (sent s) = .waiting ↔ ∀ m : Magic, ¬ m.bytes <:+: s) ∧
    (∀ junk (m : Magic), (∀ p, p <+: junk ++ m.bytes → ∀ m' : Magic, m'.bytes <:+ p →
      p = junk ++ m.bytes) → ∀ rest,
        readCommand (sent (junk ++ (m.bytes ++ rest))) = .got m (sent rest)) ∧
    ∀ expected : List (List UInt8),
      (∀ (k : Link) t k', k.readToken expected = .ok (t, k') ↔ ∃ read rest,
        Leftmost (Awaited expected) id k.inbox read t rest ∧ k' = { k with inbox := rest }) ∧
      (∀ s, Link.scanToken expected [] s = none ↔ ∀ t, Awaited expected t → ¬ t <:+: s) ∧
      ∀ junk t, Awaited expected t → (∀ p, p <+: junk ++ t → ∀ t', Awaited expected t' → t' <:+ p →
        p = junk ++ t) → ∀ (k : Link) (rest : List UInt8), k.inbox = junk ++ (t ++ rest) →
          k.readToken expected = .ok (t, { k with inbox := rest }) := by
  have hdevice := commandScanner_spots
  refine ⟨fun s m rx => ?_, fun s => ?_, fun junk m hjunk rest => ?_, fun expected => ?_⟩
  · rw [readCommand_got]
    simp only [hdevice.run_eq_some]
    constructor
    · rintro ⟨rest, ⟨read, hfirst⟩, hrx⟩
      exact ⟨read, rest, hfirst, hrx⟩
    · rintro ⟨read, rest, hfirst, hrx⟩
      exact ⟨rest, ⟨read, hfirst⟩, hrx⟩
  · rw [readCommand_waiting, hdevice.run_eq_none]
    exact forall_congr' fun m => ⟨fun h => h trivial, fun h _ => h⟩
  · refine readCommand_got.mpr ⟨rest, ?_, rfl⟩
    exact hdevice.run_junk trivial (fun p hp m' _ hsuf => hjunk p hp m' hsuf) rest
  · have hhost := tokenScanner_spots expected
    refine ⟨fun k t k' => ?_, fun s => ?_, fun junk t ht hjunk k rest hin => ?_⟩
    · rw [readToken_got]
      simp only [hhost.run_eq_some]
      constructor
      · rintro ⟨rest, ⟨read, hfirst⟩, hk⟩
        exact ⟨read, rest, hfirst, hk⟩
      · rintro ⟨read, rest, hfirst, hk⟩
        exact ⟨rest, ⟨read, hfirst⟩, hk⟩
    · rw [scanToken_eq_run, hhost.run_eq_none]
      rfl
    · refine readToken_got.mpr ⟨rest, ?_, rfl⟩
      rw [hin]
      exact hhost.run_junk ht hjunk rest

/-- A header that breaks off after three bytes, and then the whole one. -/
theorem resync_leftmost_begn :
    readCommand (sent ([0x42, 0x45, 0x47] ++ (Magic.begn.bytes ++ [0x42]))) =
      .got .begn (sent [0x42]) := by
  refine resync_leftmost.2.2.1 [0x42, 0x45, 0x47] .begn ?_ [0x42]
  intro p hp m hsuf
  rw [← List.mem_inits] at hp
  have hinits : ∀ p ∈ ([0x42, 0x45, 0x47] ++ Magic.begn.bytes).inits, ∀ m ∈ cmdMagics,
      m.bytes <:+ p → p = [0x42, 0x45, 0x47] ++ Magic.begn.bytes := by
    decide +kernel
  exact hinits p hp m (by cases m <;> decide) hsuf

end EthPanel
