import EthPanel.Bootloader.RecoveryFlash
import Mathlib.Data.List.Induction

/-!
# What stands behind a DONE

`app_len` and `app_crc` are locals of the loop: zero at its start, overwritten by a BEGN before
it is validated, and left as they are when the BEGN is refused or its header is cut. `END!`
checks whatever they hold.

`announced` follows the frames alone and says which BEGN the host is entitled to believe in:
the last one answered OKER, as long as no later header has touched its two fields. When there
is one, the locals are its fields, and a DONE is what it should be. When there is none, `END!`
compares the slot with `fields`, what the frames happen to have left there, and at the start of
a session these are a length and a CRC of zero, which agree. So it all depends on whether every
`END!` comes while a BEGN stands (`recovery_doneSound`).
-/

namespace EthPanel

open Lts

/-! ## The announcement -/

/-- A frame that leaves the two fields as announced. -/
def Frame.Keeps (len crc : UInt32) : Frame → Prop
  | .begn len' crc' => len' = len ∧ crc' = crc
  | .begnCut (some len') => len' = len
  | _ => True

/-- One frame's effect on the announcement. -/
def announceStep (a : Option (UInt32 × UInt32)) : Frame → Option (UInt32 × UInt32)
  | .begn len crc => if begnRefused len then none else some (len, crc)
  | .begnCut (some len) => if a.map Prod.fst = some len then a else none
  | _ => a

/-- The length and CRC of the BEGN that stands after these frames. -/
def announced (l : List Frame) : Option (UInt32 × UInt32) := l.foldl announceStep none

theorem announced_snoc (l : List Frame) (fr : Frame) :
    announced (l ++ [fr]) = announceStep (announced l) fr := by
  simp [announced]

theorem foldl_announceStep_keeps {len crc : UInt32} (hlen : begnRefused len = false)
    {l : List Frame} (h : ∀ fr ∈ l, fr.Keeps len crc) :
    l.foldl announceStep (some (len, crc)) = some (len, crc) := by
  induction l with
  | nil => rfl
  | cons fr l ih =>
    have hstep : announceStep (some (len, crc)) fr = some (len, crc) := by
      have hfr := h fr List.mem_cons_self
      cases fr with
      | begn len' crc' =>
        obtain ⟨rfl, rfl⟩ := hfr
        simp [announceStep, hlen]
      | begnCut len' =>
        cases len' with
        | none => rfl
        | some len' =>
          obtain rfl : len' = len := hfr
          simp [announceStep]
      | _ => rfl
    rw [List.foldl_cons, hstep]
    exact ih fun fr hfr => h fr (List.mem_cons_of_mem _ hfr)

/-- **An announcement is an accepted BEGN that nothing has touched since.** -/
theorem announced_eq_some_iff {l : List Frame} {len crc : UInt32} :
    announced l = some (len, crc) ↔ begnRefused len = false ∧
      ∃ before after, l = before ++ .begn len crc :: after ∧ ∀ fr ∈ after, fr.Keeps len crc := by
  constructor
  · intro h
    induction l using List.reverseRecOn with
    | nil => cases h
    | append_singleton l fr ih =>
      rw [announced_snoc] at h
      -- A frame that keeps the announcement extends the part after the BEGN.
      have hkeep : announced l = some (len, crc) → fr.Keeps len crc →
          begnRefused len = false ∧ ∃ before after,
            l ++ [fr] = before ++ .begn len crc :: after ∧ ∀ fr ∈ after, fr.Keeps len crc := by
        intro hl hfr
        obtain ⟨hlen, before, after, rfl, hafter⟩ := ih hl
        refine ⟨hlen, before, after ++ [fr], by simp, fun fr' hfr' => ?_⟩
        rcases List.mem_append.mp hfr' with hin | hin
        · exact hafter fr' hin
        · exact List.mem_singleton.mp hin ▸ hfr
      cases fr with
      | begn len' crc' =>
        simp only [announceStep] at h
        split at h
        · cases h
        · rename_i hlen
          obtain ⟨rfl, rfl⟩ := Prod.mk.inj (Option.some.inj h)
          exact ⟨by simpa using hlen, l, [], rfl, by simp⟩
      | begnCut len' =>
        cases len' with
        | none => exact hkeep h trivial
        | some len' =>
          simp only [announceStep] at h
          split at h
          · rename_i heq
            rw [h] at heq
            exact hkeep h (Option.some.inj heq).symm
          · cases h
      | _ => exact hkeep h trivial
  · rintro ⟨hlen, before, after, rfl, hafter⟩
    unfold announced
    rw [List.foldl_append, List.foldl_cons]
    simp only [announceStep, hlen, Bool.false_eq_true, if_false]
    exact foldl_announceStep_keeps hlen hafter

/-! ## The locals -/

/-- One frame's effect on `app_len` and `app_crc`. -/
def fieldsStep (p : UInt32 × UInt32) : Frame → UInt32 × UInt32
  | .begn len crc => (len, crc)
  | .begnCut (some len) => (len, p.2)
  | _ => p

/-- What the frames of a session have left in them. -/
def fields (l : List Frame) : UInt32 × UInt32 := l.foldl fieldsStep (0, 0)

theorem fields_execFrame (s : Recv) (fr : Frame) :
    ((execFrame s fr).1.appLen, (execFrame s fr).1.appCrc) =
      fieldsStep (s.appLen, s.appCrc) fr := by
  cases fr with
  | begn len crc =>
    simp only [execFrame]
    split <;> rfl
  | begnCut len => cases len <;> rfl
  | end' =>
    simp only [execFrame]
    split <;> rfl
  | _ => rfl

theorem fields_locals {f₀ : Flash} {rx : List Rx} {l : List Frame} {c : RecvConf}
    (r : Run RecvStep (Recv.start f₀, rx) l c) : (c.1.appLen, c.1.appCrc) = fields l := by
  have hrun : ∀ {c c' : RecvConf} {l : List Frame}, Run RecvStep c l c' →
      (c'.1.appLen, c'.1.appCrc) = l.foldl fieldsStep (c.1.appLen, c.1.appCrc) := by
    intro c c' l r
    induction r with
    | nil _ => rfl
    | cons hs _ ih => rw [ih, hs.2.2, fields_execFrame, List.foldl_cons]
  exact hrun r

/-- **The step lemma**: a BEGN that stands is what the fields hold. -/
theorem fieldsStep_of_announced {a : Option (UInt32 × UInt32)} {p : UInt32 × UInt32} (fr : Frame)
    (h : ∀ b ∈ a, p = b) : ∀ b ∈ announceStep a fr, fieldsStep p fr = b := by
  intro b hb
  cases fr with
  | begn len crc =>
    simp only [announceStep] at hb
    split at hb
    · cases hb
    · exact Option.some.inj hb
  | begnCut len =>
    cases len with
    | none => exact h b hb
    | some len =>
      simp only [announceStep] at hb
      split at hb
      · rename_i heq
        rw [Option.mem_def.mp hb] at heq
        have hlen : b.1 = len := Option.some.inj heq
        have hcrc : p.2 = b.2 := congrArg Prod.snd (h b hb)
        exact Prod.ext hlen.symm hcrc
      · cases hb
  | _ => exact h b hb

theorem fields_of_announced {l : List Frame} {p : UInt32 × UInt32} (h : announced l = some p) :
    fields l = p := by
  have hfold : ∀ (l : List Frame) (a : Option (UInt32 × UInt32)) (q : UInt32 × UInt32),
      (∀ b ∈ a, q = b) → ∀ b ∈ l.foldl announceStep a, l.foldl fieldsStep q = b := by
    intro l
    induction l with
    | nil => exact fun _ _ h => h
    | cons fr l ih => exact fun a q h => ih _ _ (fieldsStep_of_announced fr h)
  exact hfold l none (0, 0) (fun b hb => nomatch hb) p h

/-- The image check compares the slot with what the frames have left. -/
theorem imageOk_iff_fields {f₀ : Flash} {rx : List Rx} {l : List Frame} {c : RecvConf}
    (r : Run RecvStep (Recv.start f₀, rx) l c) :
    imageOk c.1 = true ↔ otaCrc32 (slotBytes c.1.flash (fields l).1) = (fields l).2 := by
  rw [← fields_locals r, imageOk, beq_iff_eq]

/-! ## DONE -/

/-- What a DONE that saved the record `r` stands for, after the frames `pre`; `f` is flash once
the record is written. -/
structure DoneLaw (f₀ : Flash) (rx : List Rx) (pre : List Frame) (f : Flash) (r : BootState) :
    Prop where
  /-- A BEGN with the record's two fields was answered OKER, and no header since changed them. -/
  begn : ∃ before after c₁ c₂, pre = before ++ .begn r.appLen r.appCrc32 :: after ∧
    Run RecvStep (Recv.start f₀, rx) before c₁ ∧
    RecvStep c₁ (.begn r.appLen r.appCrc32) c₂ ∧
    (execFrame c₁.1 (.begn r.appLen r.appCrc32)).2 = Reply.oker.bytes ∧
    ∀ fr ∈ after, fr.Keeps r.appLen r.appCrc32
  bounds : 1 ≤ r.appLen ∧ r.appLen ≤ appMaxSize
  crc : otaCrc32 (slotBytes f r.appLen) = r.appCrc32

/-- Every turn of a run that answers DONE or saves a record does both, and keeps the law. -/
def DoneSound (f₀ : Flash) (rx : List Rx) (l : List Frame) : Prop :=
  ∀ pre fr post c₁ c₂, l = pre ++ fr :: post → Run RecvStep (Recv.start f₀, rx) pre c₁ →
    RecvStep c₁ fr c₂ →
    (execFrame c₁.1 fr).2 = Reply.done.bytes ∨ savedRecord c₁.1 fr ≠ none →
    (execFrame c₁.1 fr).2 = Reply.done.bytes ∧ ∃ st, savedRecord c₁.1 fr = some st ∧
      DoneLaw f₀ rx pre c₂.1.flash (newRecord c₁.1.flash st)

/-- Whenever the image check of an `END!` passes, a BEGN stands. -/
def EndsAnnounced (f₀ : Flash) (rx : List Rx) (l : List Frame) : Prop :=
  ∀ pre post c, l = pre ++ .end' :: post → Run RecvStep (Recv.start f₀, rx) pre c →
    imageOk c.1 = true → announced pre ≠ none

theorem doneLaw_of_announced {f₀ : Flash} {rx : List Rx} {pre : List Frame} {c₁ c₂ : RecvConf}
    (r : Run RecvStep (Recv.start f₀, rx) pre c₁) (hstep : RecvStep c₁ .end' c₂)
    (hok : imageOk c₁.1 = true) (h : announced pre ≠ none) :
    DoneLaw f₀ rx pre c₂.1.flash (newRecord c₁.1.flash (endRecord c₁.1)) := by
  obtain ⟨⟨len, crc⟩, ha⟩ := Option.ne_none_iff_exists'.mp h
  obtain ⟨hl, hc⟩ := Prod.mk.inj ((fields_locals r).trans (fields_of_announced ha))
  obtain ⟨hlen, before, after, hpre, hkeep⟩ := announced_eq_some_iff.mp ha
  have happ : (newRecord c₁.1.flash (endRecord c₁.1)).appLen = len := hl
  have hcrc : (newRecord c₁.1.flash (endRecord c₁.1)).appCrc32 = crc := hc
  have hbounds := begnRefused_eq_false hlen
  refine ⟨?_, ?_, ?_⟩
  · rw [happ, hcrc]
    subst hpre
    obtain ⟨c, r₁, r₂⟩ := r.split
    cases r₂ with
    | cons hs _ =>
      exact ⟨before, after, c, _, rfl, r₁, hs, (execFrame_oker_iff _ _ _).mpr hlen, hkeep⟩
  · rw [happ]
    exact hbounds
  · have hsaved : savedRecord c₁.1 .end' = some (endRecord c₁.1) := by
      simp [savedRecord, hok]
    rw [happ, hcrc, hstep.2.2, (execFrame_flash_of_some hsaved).2.2.2,
      slotBytes_bootStateWrite hbounds.2, ← hl, ← hc]
    exact beq_iff_eq.mp hok

/-- In a run of the receiver every DONE stands for an announced image exactly when no `END!`
passes its check while no BEGN stands. -/
theorem recovery_doneSound_iff {f₀ : Flash} {rx : List Rx} {l : List Frame} {c : RecvConf}
    (r : Run RecvStep (Recv.start f₀, rx) l c) :
    DoneSound f₀ rx l ↔ EndsAnnounced f₀ rx l := by
  constructor
  · intro h pre post c₁ hl hpre hok
    obtain ⟨c', r₁, r₂⟩ := (hl ▸ r).split
    obtain rfl := r₁.eq_of_deterministic RecvStep.deterministic hpre
    cases r₂ with
    | cons hstep _ =>
      have hdone := (execFrame_done_iff c'.1 .end').mpr ⟨rfl, hok⟩
      obtain ⟨_, st, hsaved, hlaw⟩ := h pre .end' post c' _ hl hpre hstep (Or.inl hdone)
      obtain ⟨before, after, _, _, hsplit, _, _, hoker, hkeep⟩ := hlaw.begn
      rw [announced_eq_some_iff.mpr ⟨(execFrame_oker_iff _ _ _).mp hoker, before, after, hsplit,
        hkeep⟩]
      exact Option.some_ne_none _
  · intro h pre fr post c₁ c₂ hl hpre hstep hdone
    have hend : fr = .end' ∧ imageOk c₁.1 = true :=
      hdone.elim (execFrame_done_iff _ _).mp (savedRecord_ne_none_iff _ _).mp
    obtain ⟨rfl, hok⟩ := hend
    refine ⟨(execFrame_done_iff _ _).mpr ⟨rfl, hok⟩, endRecord c₁.1, by simp [savedRecord, hok], ?_⟩
    exact doneLaw_of_announced hpre hstep hok (h pre post c₁ hl hpre hok)

/-- Every `END!` comes while a BEGN stands. -/
def EndsStand (l : List Frame) : Prop :=
  ∀ pre post, l = pre ++ .end' :: post → announced pre ≠ none

/-- **What DONE is worth.** A session whose every `END!` comes while a BEGN stands answers DONE for
announced images only. An `END!` that comes while none stands is answered DONE all the same if
the slot matches what the frames have left in the fields. -/
theorem recovery_doneSound (f₀ : Flash) (rx : List Rx) (l : List Frame) (c : RecvConf)
    (r : Run RecvStep (Recv.start f₀, rx) l c) :
    (EndsStand l → DoneSound f₀ rx l) ∧
    ∀ pre post c₁, l = pre ++ .end' :: post → Run RecvStep (Recv.start f₀, rx) pre c₁ →
      announced pre = none → otaCrc32 (slotBytes c₁.1.flash (fields pre).1) = (fields pre).2 →
      ¬ DoneSound f₀ rx l := by
  refine ⟨fun h => ?_, fun pre post c₁ hl hpre hnone hmatch hsound => ?_⟩
  · exact (recovery_doneSound_iff r).mpr fun pre post _ hl _ _ => h pre post hl
  · have hok := (imageOk_iff_fields hpre).mpr hmatch
    exact (recovery_doneSound_iff r).mp hsound pre post c₁ hl hpre hok hnone

theorem recovery_doneSound_oneByte :
    DoneSound (fun _ => 0xFF) (sent ([0x42, 0x45, 0x47, 0x4E] ++ le32 1 ++ le32 0xFF000000 ++
      [0x45, 0x4E, 0x44, 0x21])) [.begn 1 0xFF000000, .end'] := by
  have hrun : Run RecvStep (Recv.start fun _ => 0xFF, sent ([0x42, 0x45, 0x47, 0x4E] ++ le32 1 ++
      le32 0xFF000000 ++ [0x45, 0x4E, 0x44, 0x21])) [.begn 1 0xFF000000, .end'] _ :=
    .cons (t := (_, sent [0x45, 0x4E, 0x44, 0x21])) ⟨rfl, by decide, rfl⟩
      (.single (t := (_, [])) ⟨rfl, by decide, rfl⟩)
  refine (recovery_doneSound _ _ _ _ hrun).1 fun pre post hl => ?_
  match pre, hl with
  | [], hl => cases hl
  | [_], hl =>
    simp only [List.cons_append, List.nil_append, List.cons.injEq] at hl
    rw [← hl.1]
    decide
  | _ :: _ :: pre, hl => simp at hl

/-- **A bare `END!` is answered DONE**: with nothing announced, the locals are zero, and so is
the CRC of no bytes. -/
theorem doneSound_bare_end : ¬ ∀ (f₀ : Flash) (rx : List Rx) (l : List Frame) (c : RecvConf),
    Run RecvStep (Recv.start f₀, rx) l c → DoneSound f₀ rx l := by
  intro h
  have hstep : RecvStep (Recv.start fun _ => 0xFF, sent [0x45, 0x4E, 0x44, 0x21]) .end' (_, []) :=
    ⟨rfl, by decide, rfl⟩
  have hok : imageOk (Recv.start fun _ => 0xFF) = true := by decide
  obtain ⟨_, st, _, hlaw⟩ := h _ _ _ _ (.single hstep) [] .end' [] _ _ rfl (.nil _) hstep
    (Or.inl ((execFrame_done_iff _ _).mpr ⟨rfl, hok⟩))
  obtain ⟨before, after, _, _, hsplit, _⟩ := hlaw.begn
  simp at hsplit

end EthPanel
