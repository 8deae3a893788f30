import EthPanel.App.Buttons

/-!
# What debouncing means

`buttons_update` keeps one level and one wrapped timestamp per button. Its meaning is about the
whole history: an edge is reported when the level differs from the debounced one and has held,
without a break, for the window (`debounce_spec`). `HeldSince` is that history, `Latched` what the
code remembers of it: enough, because as long as an edge is pending its time is less than a window
ago, and the next sample comes before the clock can wrap past it.
-/

namespace EthPanel

/-- An update as it really happens: at a time that does not wrap. -/
structure Sample where
  time : ℕ
  raw : Levels
  window : UInt16
  maxEvents : ℤ

def Sample.run (bs : Buttons) (x : Sample) : Buttons × List BtnEvent :=
  buttonsUpdate (buttonsSetDebounce bs x.window) x.raw (UInt32.ofNat x.time) x.maxEvents

/-- The state before update `k`. -/
def before (debounceMs : UInt16) (s : ℕ → Sample) : ℕ → Buttons
  | 0 => buttonsInit debounceMs
  | k + 1 => ((s k).run (before debounceMs s k)).1

/-- Update `k` emits an edge with level `v` for button `i`. -/
def EdgeAt (debounceMs : UInt16) (s : ℕ → Sample) (k : ℕ) (i : Button) (v : Bool) : Prop :=
  ⟨i + 1, v⟩ ∈ ((s k).run (before debounceMs s k)).2

/-- There is no debounced level before the first sample. -/
def debouncedLevel (bs : Buttons) (i : Button) : Option Bool :=
  if bs.initialized then some (buttonsPressed bs (i : ℕ)) else none

/-- The maximal run of equal samples of button `i` that ends at `k` began at `j`. -/
structure HeldSince (s : ℕ → Sample) (i : Button) (k j : ℕ) : Prop where
  le : j ≤ k
  held : ∀ m, j ≤ m → m ≤ k → (s m).raw i = (s k).raw i
  maximal : ∀ m, m + 1 = j → (s m).raw i ≠ (s k).raw i

/-- Samples up to `k` in order, less than `2^31` ms apart, each with room for both edges. -/
structure Regular (s : ℕ → Sample) (k : ℕ) : Prop where
  mono : ∀ m < k, (s m).time ≤ (s (m + 1)).time
  close : ∀ m < k, (s (m + 1)).time < (s m).time + 2 ^ 31
  room : ∀ m ≤ k, btnCount ≤ (s m).maxEvents

/-- The edge that update `k` owes button `i`. -/
def EdgeDue (debounceMs : UInt16) (s : ℕ → Sample) (k : ℕ) (i : Button) (v : Bool) : Prop :=
  v = (s k).raw i ∧ (∃ b, debouncedLevel (before debounceMs s k) i = some b ∧ v ≠ b) ∧
    ∃ j, HeldSince s i k j ∧ (s k).window.toNat ≤ (s k).time - (s j).time

section History

variable {debounceMs : UInt16} {s : ℕ → Sample} {i : Button} {k j : ℕ}

theorem Regular.of_le (h : Regular s k) (hj : j ≤ k) : Regular s j :=
  ⟨fun m hm => h.mono m (by omega), fun m hm => h.close m (by omega),
    fun m hm => h.room m (by omega)⟩

theorem Regular.time_le (h : Regular s k) (hj : j ≤ k) : (s j).time ≤ (s k).time := by
  induction k with
  | zero => rw [Nat.le_zero.mp hj]
  | succ k ih =>
    rcases Nat.lt_or_eq_of_le hj with hlt | rfl
    · have hprev := ih (h.of_le (Nat.le_succ k)) (Nat.le_of_lt_succ hlt)
      exact hprev.trans (h.mono k (Nat.lt_succ_self k))
    · exact Nat.le_refl _

theorem HeldSince.unique {j' : ℕ} (h : HeldSince s i k j) (h' : HeldSince s i k j') : j = j' := by
  have hnot : ∀ {a b : ℕ}, HeldSince s i k a → HeldSince s i k b → ¬ a < b := by
    intro a b ha hb hlt
    obtain ⟨m, rfl⟩ : ∃ m, b = m + 1 := ⟨b - 1, by omega⟩
    exact hb.maximal m rfl (ha.held m (by omega) (by have := hb.le; omega))
  have := hnot h h'
  have := hnot h' h
  omega

theorem HeldSince.new (hne : (s (k + 1)).raw i ≠ (s k).raw i) : HeldSince s i (k + 1) (k + 1) := by
  refine ⟨Nat.le_refl _, ?_, ?_⟩
  · intro m h₁ h₂
    rw [Nat.le_antisymm h₂ h₁]
  · intro m hm
    rw [Nat.succ.inj hm]
    exact hne.symm

theorem HeldSince.same (h : HeldSince s i k j) (heq : (s (k + 1)).raw i = (s k).raw i) :
    HeldSince s i (k + 1) j := by
  refine ⟨Nat.le_succ_of_le h.le, ?_, ?_⟩
  · intro m h₁ h₂
    rcases Nat.lt_or_eq_of_le h₂ with hlt | rfl
    · rw [heq]
      exact h.held m h₁ (Nat.le_of_lt_succ hlt)
    · rfl
  · intro m hm
    rw [heq]
    exact h.maximal m hm

/-! ## The clock -/

/-- Less than `2^32` ms, the wrapped difference is the true one. -/
theorem elapsed_toNat {t t' : ℕ} (hle : t' ≤ t) (hlt : t < t' + 2 ^ 32) :
    (UInt32.ofNat t - UInt32.ofNat t').toNat = t - t' := by
  rw [UInt32.toNat_sub, UInt32.toNat_ofNat', UInt32.toNat_ofNat']
  omega

/-! ## What the code remembers -/

/-- The state after update `k`. -/
structure Latched (s : ℕ → Sample) (k : ℕ) (bs : Buttons) : Prop where
  initialized : bs.initialized = true
  rawLast : ∀ i, bs.rawLast i = (s k).raw i
  since : ∀ i, ∃ j, HeldSince s i k j ∧ bs.rawSinceMs i = UInt32.ofNat (s j).time ∧
    (bs.stable i ≠ (s k).raw i → (s k).time < (s j).time + 2 ^ 16)

theorem Latched.seed (debounceMs : UInt16) (s : ℕ → Sample) :
    Latched s 0 (before debounceMs s 1) := by
  rw [before, before, Sample.run, buttonsUpdate_seed rfl]
  refine ⟨rfl, fun _ => rfl, fun i => ⟨0, ?_, rfl, fun hne => absurd rfl hne⟩⟩
  refine ⟨Nat.le_refl _, ?_, ?_⟩
  · intro m _ hm
    rw [Nat.le_zero.mp hm]
  · intro m hm
    cases hm

/-- **The latch, by the history**: the timestamp is that of the current run of equal samples, and
while an edge is pending the clock has not wrapped past it. -/
theorem Latched.latch {bs : Buttons} (h : Latched s k bs) (hr : Regular s (k + 1)) (i : Button) :
    ∃ j, HeldSince s i (k + 1) j ∧
      ((buttonsSetDebounce bs (s (k + 1)).window).latch (s (k + 1)).raw
        (UInt32.ofNat (s (k + 1)).time) i).rawSinceMs i = UInt32.ofNat (s j).time ∧
      ((s (k + 1)).raw i ≠ bs.stable i → (s (k + 1)).time < (s j).time + 2 ^ 32) := by
  obtain ⟨j, hheld, hsince, hpending⟩ := h.since i
  rw [Buttons.latch_rawSinceMs, Function.update_self]
  show ∃ j, _ ∧ (if (s (k + 1)).raw i ≠ bs.rawLast i then _ else bs.rawSinceMs i) = _ ∧ _
  rw [h.rawLast i]
  by_cases heq : (s (k + 1)).raw i = (s k).raw i
  · rw [if_neg (not_not.mpr heq)]
    refine ⟨j, hheld.same heq, hsince, fun hne => ?_⟩
    have hlt := hpending (heq ▸ hne.symm)
    have hclose := hr.close k (Nat.lt_succ_self k)
    omega
  · rw [if_pos heq]
    exact ⟨k + 1, .new heq, rfl, fun _ => by omega⟩

/-- **Due means held for the window.** -/
theorem Latched.due_iff {bs : Buttons} (h : Latched s k bs) (hr : Regular s (k + 1)) {i : Button}
    (hj : HeldSince s i (k + 1) j) :
    ((buttonsSetDebounce bs (s (k + 1)).window).latch (s (k + 1)).raw
        (UInt32.ofNat (s (k + 1)).time) i).Due (s (k + 1)).raw (UInt32.ofNat (s (k + 1)).time) i ↔
      (s (k + 1)).raw i ≠ bs.stable i ∧
        (s (k + 1)).window.toNat ≤ (s (k + 1)).time - (s j).time := by
  obtain ⟨j', hj', hsince, hwrap⟩ := h.latch hr i
  obtain rfl := hj'.unique hj
  unfold Buttons.Due
  rw [hsince, Buttons.latch_stable, Buttons.latch_debounceMs]
  show _ ≠ bs.stable i ∧ _ ≥ ((s (k + 1)).window).toUInt32 ↔ _
  refine and_congr_right fun hne => ?_
  rw [ge_iff_le, UInt32.le_iff_toNat_le, elapsed_toNat (hr.time_le hj'.le) (hwrap hne),
    UInt16.toNat_toUInt32]

/-- **The step lemma.** -/
theorem Latched.step {bs : Buttons} (h : Latched s k bs) (hr : Regular s (k + 1)) :
    Latched s (k + 1) ((s (k + 1)).run bs).1 := by
  have hinit : (buttonsSetDebounce bs (s (k + 1)).window).initialized = true := h.initialized
  have hswept := buttonsUpdate_swept hinit (s (k + 1)).raw (UInt32.ofNat (s (k + 1)).time)
    (s (k + 1)).maxEvents
  refine ⟨hswept.initialized.trans hinit, ?_, ?_⟩
  · intro i
    exact (hswept.latched i (List.mem_finRange i)).1
  · intro i
    obtain ⟨j, hj, hsince, _⟩ := h.latch hr i
    refine ⟨j, hj, (hswept.latched i (List.mem_finRange i)).2.trans hsince, fun hne => ?_⟩
    -- A level that still differs was not due.
    have hsame : ((s (k + 1)).run bs).1.stable i = bs.stable i := by
      by_contra hflip
      exact hne (hswept.flips i hflip).1
    have hnot : ¬ _ := fun hdue => by
      have hfull := hswept.misses i (List.mem_finRange i) hsame hdue
      rw [List.length_finRange] at hfull
      exact absurd (hr.room (k + 1) (Nat.le_refl _)) (not_le.mpr hfull)
    rw [h.due_iff hr hj, not_and] at hnot
    have hlt := hnot (hsame ▸ hne.symm)
    have hwindow := (s (k + 1)).window.toNat_lt
    omega

theorem latched_before (debounceMs : UInt16) (hr : Regular s k) :
    Latched s k (before debounceMs s (k + 1)) := by
  induction k with
  | zero => exact .seed debounceMs s
  | succ k ih => exact (ih (hr.of_le (Nat.le_succ k))).step hr

/-! ## Edges -/

theorem mem_levelsOf {evs : List BtnEvent} {i : Button} {v : Bool} :
    v ∈ levelsOf i evs ↔ (⟨i + 1, v⟩ : BtnEvent) ∈ evs := by
  unfold levelsOf
  rw [List.mem_map]
  constructor
  · rintro ⟨⟨id, pressed⟩, he, rfl⟩
    obtain ⟨he, hid⟩ := List.mem_filter.mp he
    obtain rfl : id = i.val + 1 := beq_iff_eq.mp hid
    exact he
  · intro he
    exact ⟨⟨i + 1, v⟩, List.mem_filter.mpr ⟨he, beq_iff_eq.mpr rfl⟩, rfl⟩

theorem edgeAt_zero (debounceMs : UInt16) (s : ℕ → Sample) (i : Button) (v : Bool) :
    ¬ EdgeAt debounceMs s 0 i v := by
  unfold EdgeAt
  rw [before, Sample.run, buttonsUpdate_seed rfl]
  exact List.not_mem_nil

/-- An edge is a flip of the debounced level. -/
theorem Latched.edgeAt_iff (h : Latched s k (before debounceMs s (k + 1))) {v : Bool} :
    EdgeAt debounceMs s (k + 1) i v ↔
      (before debounceMs s (k + 2)).stable i ≠ (before debounceMs s (k + 1)).stable i ∧
        v = (before debounceMs s (k + 2)).stable i := by
  have hinit : (buttonsSetDebounce (before debounceMs s (k + 1)) (s (k + 1)).window).initialized
      = true := h.initialized
  have hswept := buttonsUpdate_swept hinit (s (k + 1)).raw (UInt32.ofNat (s (k + 1)).time)
    (s (k + 1)).maxEvents
  unfold EdgeAt
  rw [← mem_levelsOf]
  show v ∈ levelsOf i (buttonsUpdate _ _ _ _).2 ↔ _
  rw [hswept.levels i]
  show v ∈ (if (before debounceMs s (k + 2)).stable i = (before debounceMs s (k + 1)).stable i
    then [] else [(before debounceMs s (k + 2)).stable i]) ↔ _
  split
  · rename_i hsame
    exact iff_of_false List.not_mem_nil fun hflip => hflip.1 hsame
  · rename_i hflip
    rw [List.mem_singleton]
    exact (and_iff_right hflip).symm

theorem debouncedLevel_before (hr : Regular s k) :
    debouncedLevel (before debounceMs s (k + 1)) i
      = some ((before debounceMs s (k + 1)).stable i) := by
  unfold debouncedLevel
  rw [if_pos (latched_before debounceMs hr).initialized, buttonsPressed_coe]

/-- **The edges are those the history owes.** -/
theorem edgeAt_iff_edgeDue (hr : Regular s k) (i : Button) (v : Bool) :
    EdgeAt debounceMs s k i v ↔ EdgeDue debounceMs s k i v := by
  cases k with
  | zero =>
    refine iff_of_false (edgeAt_zero debounceMs s i v) ?_
    rintro ⟨_, ⟨b, hb, _⟩, _⟩
    cases hb
  | succ k =>
    have hlatch := latched_before debounceMs (hr.of_le (Nat.le_succ k))
    have hinit : (buttonsSetDebounce (before debounceMs s (k + 1)) (s (k + 1)).window).initialized
        = true := hlatch.initialized
    have hswept := buttonsUpdate_swept hinit (s (k + 1)).raw (UInt32.ofNat (s (k + 1)).time)
      (s (k + 1)).maxEvents
    rw [hlatch.edgeAt_iff]
    unfold EdgeDue
    rw [debouncedLevel_before (hr.of_le (Nat.le_succ k))]
    constructor
    · rintro ⟨hflip, rfl⟩
      obtain ⟨hraw, hdue⟩ := hswept.flips i hflip
      obtain ⟨j, hj, _⟩ := hlatch.latch hr i
      exact ⟨hraw, ⟨_, rfl, hflip⟩, j, hj, ((hlatch.due_iff hr hj).mp hdue).2⟩
    · rintro ⟨rfl, ⟨b, hb, hne⟩, j, hj, hwindow⟩
      obtain rfl := Option.some.inj hb
      have hflip : (before debounceMs s (k + 2)).stable i
          ≠ (before debounceMs s (k + 1)).stable i := by
        intro hsame
        have hfull := hswept.misses i (List.mem_finRange i) hsame
          ((hlatch.due_iff hr hj).mpr ⟨hne, hwindow⟩)
        rw [List.length_finRange] at hfull
        exact absurd (hr.room (k + 1) (Nat.le_refl _)) (not_le.mpr hfull)
      exact ⟨hflip, (hswept.flips i hflip).1.symm⟩

/-- The debounced level changes at its edges, and is then the sampled one. -/
theorem stable_succ (debounceMs : UInt16) (hr : Regular s (k + 1)) (i : Button) :
    (EdgeAt debounceMs s (k + 1) i ((s (k + 1)).raw i) →
      (before debounceMs s (k + 2)).stable i = (s (k + 1)).raw i) ∧
    (¬ EdgeAt debounceMs s (k + 1) i ((s (k + 1)).raw i) →
      (before debounceMs s (k + 2)).stable i = (before debounceMs s (k + 1)).stable i) := by
  have hlatch := latched_before debounceMs (hr.of_le (Nat.le_succ k))
  refine ⟨fun hedge => (hlatch.edgeAt_iff.mp hedge).2.symm, fun hnone => ?_⟩
  by_contra hflip
  have hedge := hlatch.edgeAt_iff.mpr ⟨hflip, rfl⟩
  have hraw := ((edgeAt_iff_edgeDue hr i _).mp hedge).1
  exact hnone (hraw ▸ hedge)

end History

/-! ## What an edge depends on -/

/-- Up to update `k`, button `i` is sampled alike, under the same windows, on clocks that are `c`
apart. -/
structure Alike (i : Button) (c : ℕ) (k : ℕ) (s s' : ℕ → Sample) : Prop where
  time : ∀ m ≤ k, (s' m).time = (s m).time + c
  window : ∀ m ≤ k, (s' m).window = (s m).window
  raw : ∀ m ≤ k, (s' m).raw i = (s m).raw i

section Alike

variable {debounceMs debounceMs' : UInt16} {s s' : ℕ → Sample} {i : Button} {c k : ℕ}

theorem Alike.of_le {j : ℕ} (h : Alike i c k s s') (hj : j ≤ k) : Alike i c j s s' :=
  ⟨fun m hm => h.time m (hm.trans hj), fun m hm => h.window m (hm.trans hj),
    fun m hm => h.raw m (hm.trans hj)⟩

theorem Alike.heldSince_iff (h : Alike i c k s s') (j : ℕ) :
    HeldSince s' i k j ↔ HeldSince s i k j := by
  have hk := h.raw k (Nat.le_refl k)
  constructor
  · rintro ⟨hle, hheld, hmax⟩
    refine ⟨hle, fun m h₁ h₂ => ?_, fun m hm => ?_⟩
    · rw [← h.raw m h₂, ← hk]
      exact hheld m h₁ h₂
    · rw [← h.raw m (by omega), ← hk]
      exact hmax m hm
  · rintro ⟨hle, hheld, hmax⟩
    refine ⟨hle, fun m h₁ h₂ => ?_, fun m hm => ?_⟩
    · rw [h.raw m h₂, hk]
      exact hheld m h₁ h₂
    · rw [h.raw m (by omega), hk]
      exact hmax m hm

/-- With the same level before it, update `k` owes the same edges. -/
theorem Alike.edgeDue_iff (h : Alike i c k s s')
    (hlevel : debouncedLevel (before debounceMs' s' k) i = debouncedLevel (before debounceMs s k) i)
    (v : Bool) : EdgeDue debounceMs' s' k i v ↔ EdgeDue debounceMs s k i v := by
  unfold EdgeDue
  rw [h.raw k (Nat.le_refl k), hlevel, h.window k (Nat.le_refl k), h.time k (Nat.le_refl k)]
  refine and_congr_right fun _ => and_congr_right fun _ => exists_congr fun j => ?_
  rw [h.heldSince_iff]
  refine and_congr_right fun hj => ?_
  rw [h.time j hj.le, Nat.add_sub_add_right]

theorem Alike.level (h : Alike i c k s s') (hr : Regular s k) (hr' : Regular s' k) :
    debouncedLevel (before debounceMs' s' k) i = debouncedLevel (before debounceMs s k) i := by
  induction k with
  | zero => rfl
  | succ k ih =>
    have hr₀ := hr.of_le (Nat.le_succ k)
    have hr₀' := hr'.of_le (Nat.le_succ k)
    have hprev := ih (h.of_le (Nat.le_succ k)) hr₀ hr₀'
    rw [debouncedLevel_before hr₀, debouncedLevel_before hr₀', Option.some.injEq]
    cases k with
    | zero =>
      rw [before, before, Sample.run, before, before, Sample.run, buttonsUpdate_seed rfl,
        buttonsUpdate_seed rfl]
      exact h.raw 0 (Nat.zero_le _)
    | succ k =>
      have hedge := (h.of_le (Nat.le_succ (k + 1))).edgeDue_iff hprev ((s (k + 1)).raw i)
      rw [← edgeAt_iff_edgeDue hr₀', ← edgeAt_iff_edgeDue hr₀] at hedge
      have hraw := h.raw (k + 1) (by omega)
      obtain ⟨hyes, hno⟩ := stable_succ debounceMs hr₀ i
      obtain ⟨hyes', hno'⟩ := stable_succ debounceMs' hr₀' i
      rw [debouncedLevel_before (hr₀.of_le (Nat.le_succ k)),
        debouncedLevel_before (hr₀'.of_le (Nat.le_succ k)), Option.some.injEq] at hprev
      rw [hraw] at hyes' hno'
      by_cases he : EdgeAt debounceMs s (k + 1) i ((s (k + 1)).raw i)
      · rw [hyes he, hyes' (hedge.mpr he)]
      · rw [hno he, hno' fun he' => he (hedge.mp he'), hprev]

end Alike

/-- **The debouncer equals its specification.** An edge is emitted exactly when the history owes
one. So no level is reported that has not held throughout the window; and the edges of a button
depend on its own samples, the windows and the differences of the times, on nothing else. -/
theorem debounce_spec {debounceMs : UInt16} {s : ℕ → Sample} {k : ℕ} (hr : Regular s k)
    (i : Button) (v : Bool) :
    (EdgeAt debounceMs s k i v ↔ EdgeDue debounceMs s k i v) ∧
    (EdgeAt debounceMs s k i v →
      ∀ m ≤ k, (s k).time - (s m).time < (s k).window.toNat → (s m).raw i = v) ∧
    (∀ (debounceMs' : UInt16) (s' : ℕ → Sample) (c : ℕ), Regular s' k → Alike i c k s s' →
      (EdgeAt debounceMs' s' k i v ↔ EdgeAt debounceMs s k i v)) := by
  refine ⟨edgeAt_iff_edgeDue hr i v, ?_, ?_⟩
  · intro hedge m hm hlt
    obtain ⟨rfl, _, j, hj, hwindow⟩ := (edgeAt_iff_edgeDue hr i v).mp hedge
    refine hj.held m ?_ hm
    by_contra hlate
    have := (hr.of_le hj.le).time_le (Nat.le_of_not_le hlate)
    omega
  · intro debounceMs' s' c hr' halike
    rw [edgeAt_iff_edgeDue hr', edgeAt_iff_edgeDue hr]
    exact halike.edgeDue_iff (halike.level hr hr') v

/-- Button 1 is pressed 10 ms before the clock wraps. -/
def wrapSamples (m : ℕ) : Sample :=
  ⟨2 ^ 32 - 20 + 10 * m, fun i => decide (0 < m) && i == 0, 30, 2⟩

theorem debounce_spec_wrap : EdgeAt 30 wrapSamples 4 0 true := by
  have hr : Regular wrapSamples 4 := by
    refine ⟨?_, ?_, ?_⟩
    · intro m _
      simp only [wrapSamples]
      omega
    · intro m _
      simp only [wrapSamples]
      omega
    · intro m _
      exact le_refl _
  have hheld : HeldSince wrapSamples 0 4 1 := by
    refine ⟨by decide, ?_, ?_⟩
    · intro m h₁ _
      simp [wrapSamples, Nat.lt_of_lt_of_le Nat.zero_lt_one h₁]
    · intro m hm
      rw [Nat.succ.inj hm]
      decide
  exact (debounce_spec hr 0 true).1.mpr
    ⟨by decide, ⟨false, by decide, by decide⟩, 1, hheld, by decide⟩

end EthPanel
