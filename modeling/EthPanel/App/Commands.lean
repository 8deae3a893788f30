import EthPanel.App.FlatJson

/-!
# `proto_parse` on a JSON object

`FlatObject.command` says what an object asks for: its verb, and of the fields that belong to the
verb the integers, saturated, and the switch. `proto_parse` finds just that (`protoParse_text`),
with one miss: `get_bool` compares characters, so the integer zero written `-0` is not a 0 to it.
-/

namespace EthPanel

open Search

/-- The verb that a string names. -/
def CmdType.named (verb : List UInt8) : CmdType :=
  if verb = cstr "ring" then .ring
  else if verb = cstr "lamp" then .lamp
  else if verb = cstr "config" then .config
  else if verb = cstr "ping" then .ping
  else if verb = cstr "ota" then .ota
  else if verb = cstr "hello" then .hello
  else .unknown

namespace FlatObject

/-- The integer that a key holds. -/
def int? (o : FlatObject) (key : String) : Option ℤ :=
  match o.get? (cstr key) with
  | some (.int n) => some n.value
  | _ => none

/-- An integer field. -/
def intField (o : FlatObject) (key : String) : ℤ := ((o.int? key).map saturate).getD (-1)

/-- A switch: `true` or 1, `false` or 0. -/
def boolField (o : FlatObject) (key : String) : ℤ :=
  match o.get? (cstr key) with
  | some (.bool b) => if b then 1 else 0
  | some (.int n) => if n.value = 1 then 1 else if n.value = 0 then 0 else -1
  | _ => -1

/-- The verb and its fields. -/
def fields (o : FlatObject) : CmdType → ProtoCmd
  | .ring =>
    { ProtoCmd.absent with
      type := .ring
      id := o.intField "id"
      r := o.intField "r"
      g := o.intField "g"
      b := o.intField "b"
      brightness := o.intField "brightness" }
  | .lamp => { ProtoCmd.absent with type := .lamp, on := o.boolField "on" }
  | .config => { ProtoCmd.absent with type := .config, debounceMs := o.intField "debounce_ms" }
  | type => { ProtoCmd.absent with type }

def verb? (o : FlatObject) : Option (List UInt8) :=
  match o.get? (cstr "cmd") with
  | some (.str s) => some s.bytes
  | _ => none

/-- The command in an object, if there is one. -/
def command (o : FlatObject) : Bool × ProtoCmd :=
  match o.verb? with
  | some verb => (true, o.fields (.named verb))
  | none => (false, .absent)

/-- The object switches the lamp to `-0`. -/
def LampNegZero (o : FlatObject) : Prop :=
  o.verb? = some (cstr "lamp") ∧ o.get? (cstr "on") = some (.int ⟨true, 0⟩)

instance (o : FlatObject) : Decidable o.LampNegZero := inferInstanceAs (Decidable (_ ∧ _))

end FlatObject

/-! ## Reading a value -/

theorem isDigit_of_isSep {c : UInt8} (h : isSep c = true) : isDigit c = false := by
  simp only [isSep, isBlank, Bool.or_eq_true, beq_iff_eq] at h
  rcases h with (((rfl | rfl) | rfl) | rfl) | rfl <;> decide

theorem isSpace_of_isDigit {c : UInt8} (h : isDigit c = true) : isSpace c = false := by
  simp only [isDigit, Bool.and_eq_true, decide_eq_true_eq, UInt8.le_iff_toNat_le] at h
  rw [← Bool.not_eq_true]
  intro hspace
  simp only [isSpace, Bool.or_eq_true, Bool.and_eq_true, beq_iff_eq, decide_eq_true_eq,
    UInt8.le_iff_toNat_le, ← UInt8.toNat_inj] at hspace
  simp at h hspace
  omega

theorem Ends.noDigit {s : List UInt8} (hs : Ends s) : noDigit s = true := by
  obtain ⟨c, rest, rfl, hsep⟩ := hs.head
  simp [EthPanel.noDigit, isDigit_of_isSep hsep]

theorem takeWhile_decimal (n : ℕ) {s : List UInt8} (hs : noDigit s = true) :
    (utf8 (decimal n) ++ s).takeWhile isDigit = utf8 (decimal n) := by
  rw [List.takeWhile_append_of_pos (decimal_isDigit n)]
  cases s with
  | nil => exact List.append_nil _
  | cons c rest =>
    rw [List.takeWhile_cons_of_neg (by simpa [noDigit] using hs), List.append_nil]

theorem strtol_text (n : IntLit) {s : List UInt8} (hs : noDigit s = true) :
    strtol (n.text ++ s) = saturate n.value := by
  have hdigits : digitsValue ((utf8 (decimal n.mag) ++ s).takeWhile isDigit) = n.mag := by
    rw [takeWhile_decimal n.mag hs, digitsValue_decimal]
  unfold strtol IntLit.text IntLit.value
  cases n.neg with
  | true =>
    have hspace : isSpace 0x2D = false := by decide
    simp only [if_true, List.cons_append, List.nil_append, List.dropWhile_cons, hspace,
      Bool.false_eq_true, if_false, hdigits]
  | false =>
    obtain ⟨c, cs, hcons, hdigit⟩ := decimal_cons n.mag
    rw [hcons] at hdigits
    simp only [Bool.false_eq_true, if_false, List.nil_append, hcons, List.cons_append,
      List.dropWhile_cons, isSpace_of_isDigit hdigit, ne_of_isDigit hdigit (d := 0x2D) (by decide),
      ne_of_isDigit hdigit (d := 0x2B) (by decide)]
    rw [← List.cons_append, hdigits]

/-! ### At the value that `find_key` points at -/

section At

variable {s key after : List UInt8} {v : Scalar}

theorem getStr_at (n : ℕ) : findKey s key = some (v.text ++ after) →
    getStr s key n = match v with
      | .str w => some (w.bytes.take (n - 1))
      | _ => none := by
  intro h
  unfold getStr
  rw [h]
  cases v with
  | str w =>
    have hquote : (w.bytes ++ quote :: after).takeWhile (· != quote) = w.bytes := by
      rw [List.takeWhile_append_of_pos fun c hc => bne_iff_ne.mpr (w.plain c hc).1,
        List.takeWhile_cons_of_neg (by simp), List.append_nil]
    simp only [Scalar.text, quoted, List.cons_append, List.append_assoc, List.nil_append, if_true,
      hquote]
  | int m =>
    obtain ⟨c, cs, hcons, hc⟩ := m.text_cons
    have hne : c ≠ quote := by
      rcases hc with rfl | hdigit
      · decide
      · exact ne_of_isDigit hdigit (by decide)
    simp only [Scalar.text, hcons, List.cons_append, if_neg hne]
  | bool b => cases b <;> rfl
  | null => rfl

theorem getInt_at (hafter : noDigit after = true) : findKey s key = some (v.text ++ after) →
    getInt s key = match v with
      | .int n => some (saturate n.value)
      | _ => none := by
  intro h
  unfold getInt
  rw [h]
  cases v with
  | int n =>
    obtain ⟨c, cs, hcons, hc⟩ := n.text_cons
    have hstart : ¬ (c ≠ 0x2D ∧ isDigit c = false) := by
      rintro ⟨h₁, h₂⟩
      rcases hc with rfl | hdigit
      · exact h₁ rfl
      · rw [hdigit] at h₂
        cases h₂
    have hread := strtol_text n hafter
    simp only [hcons, List.cons_append] at hread
    simp only [Scalar.text, hcons, List.cons_append, if_neg hstart, hread]
  | str w => rfl
  | bool b => cases b <;> rfl
  | null => rfl

theorem noDigit_decimal {n : ℕ} {c : UInt8} {cs s : List UInt8} (hs : noDigit s = true)
    (hcons : utf8 (decimal n) = c :: cs) : noDigit (cs ++ s) = true ↔ cs = [] := by
  constructor
  · intro hno
    cases cs with
    | nil => rfl
    | cons d ds =>
      have hdigit := decimal_isDigit n d (by rw [hcons]; simp)
      simp [noDigit, hdigit] at hno
  · rintro rfl
    exact hs

theorem decimal_inj {n m : ℕ} (h : utf8 (decimal n) = utf8 (decimal m)) : n = m := by
  rw [← digitsValue_decimal n, h, digitsValue_decimal]

/-- The number is the digit that its text begins with when no digit comes next. -/
theorem single_digit_iff {n k : ℕ} {c d : UInt8} {cs s : List UInt8} (hs : noDigit s = true)
    (hcons : utf8 (decimal n) = c :: cs) (hd : utf8 (decimal k) = [d]) :
    c = d ∧ noDigit (cs ++ s) = true ↔ n = k := by
  rw [noDigit_decimal hs hcons]
  constructor
  · rintro ⟨rfl, rfl⟩
    exact decimal_inj (hcons.trans hd.symm)
  · rintro rfl
    rw [hd] at hcons
    simpa using hcons.symm

theorem getBool_at (hafter : noDigit after = true) : findKey s key = some (v.text ++ after) →
    getBool s key = match v with
      | .bool b => some (if b then 1 else 0)
      | .int ⟨false, 1⟩ => some 1
      | .int ⟨false, 0⟩ => some 0
      | _ => none := by
  intro h
  unfold getBool
  rw [h]
  have htrue : cstr "true" = [0x74, 0x72, 0x75, 0x65] := by decide
  have hfalse : cstr "false" = [0x66, 0x61, 0x6C, 0x73, 0x65] := by decide
  have hnull : cstr "null" = [0x6E, 0x75, 0x6C, 0x6C] := by decide
  cases v with
  | int n =>
    obtain ⟨neg, mag⟩ := n
    obtain ⟨c, cs, hcons, hdigit⟩ := decimal_cons mag
    have hc₁ : c ≠ 0x74 := ne_of_isDigit hdigit (by decide)
    have hc₂ : c ≠ 0x66 := ne_of_isDigit hdigit (by decide)
    cases neg with
    | true => simp [Scalar.text, IntLit.text, htrue, hfalse, hcons, List.isPrefixOf]
    | false =>
      have hone := single_digit_iff (k := 1) (d := 0x31) hafter hcons (by decide)
      have hzero := single_digit_iff (k := 0) (d := 0x30) hafter hcons (by decide)
      have hread : (if c = 0x31 ∧ noDigit (cs ++ after) = true then some (1 : ℤ)
          else if c = 0x30 ∧ noDigit (cs ++ after) = true then some 0 else none)
          = if mag = 1 then some 1 else if mag = 0 then some 0 else none := by
        simp only [hone, hzero]
      simp only [Scalar.text, IntLit.text, Bool.false_eq_true, if_false, List.nil_append, hcons,
        List.cons_append, htrue, hfalse, List.isPrefixOf]
      rw [beq_false_of_ne hc₁.symm, beq_false_of_ne hc₂.symm]
      simp only [Bool.false_and, Bool.false_eq_true, if_false]
      rw [hread]
      rcases mag with _ | _ | n <;> rfl
  | str w => rfl
  | bool b => cases b <;> rfl
  | null => rfl

end At

/-! ### In an object -/

theorem getStr_text {key : List UInt8} (hkey : KeyName key) (o : FlatObject) (n : ℕ) :
    getStr o.text key n = match o.get? key with
      | some (.str s) => some (s.bytes.take (n - 1))
      | _ => none := by
  obtain ⟨after, hafter, hfind⟩ := findKey_text hkey o
  cases hget : o.get? key with
  | none =>
    rw [hget] at hfind
    rw [getStr, hfind]
    rfl
  | some v =>
    rw [hget] at hfind
    rw [getStr_at n hfind]
    cases v <;> rfl

theorem getInt_text {key : List UInt8} (hkey : KeyName key) (o : FlatObject) :
    getInt o.text key = match o.get? key with
      | some (.int n) => some (saturate n.value)
      | _ => none := by
  obtain ⟨after, hafter, hfind⟩ := findKey_text hkey o
  cases hget : o.get? key with
  | none =>
    rw [hget] at hfind
    rw [getInt, hfind]
    rfl
  | some v =>
    rw [hget] at hfind
    rw [getInt_at hafter.noDigit hfind]
    cases v <;> rfl

theorem getBool_text {key : List UInt8} (hkey : KeyName key) (o : FlatObject) :
    getBool o.text key = match o.get? key with
      | some (.bool b) => some (if b then 1 else 0)
      | some (.int ⟨false, 1⟩) => some 1
      | some (.int ⟨false, 0⟩) => some 0
      | _ => none := by
  obtain ⟨after, hafter, hfind⟩ := findKey_text hkey o
  cases hget : o.get? key with
  | none =>
    rw [hget] at hfind
    rw [getBool, hfind]
    rfl
  | some v =>
    rw [hget] at hfind
    rw [getBool_at hafter.noDigit hfind]
    rcases v with ⟨_ | _, _ | _ | _⟩ | _ | _ | _ <;> rfl

/-! ## The command -/

/-- The buffer of 16 is too small for no verb, and cuts no other string down to one. -/
theorem take_eq_verb {l w : List UInt8} {n : ℕ} (hw : w.length < n) : l.take n = w ↔ l = w := by
  constructor
  · rintro rfl
    rw [List.length_take] at hw
    exact (List.take_of_length_le (by omega)).symm
  · rintro rfl
    exact List.take_of_length_le hw.le

theorem getInt_getD {key : String} (hkey : KeyName (cstr key)) (o : FlatObject) :
    (getInt o.text (cstr key)).getD (-1) = o.intField key := by
  rw [getInt_text hkey, FlatObject.intField, FlatObject.int?]
  cases o.get? (cstr key) with
  | none => rfl
  | some v => cases v <;> rfl

theorem getBool_getD {key : String} (hkey : KeyName (cstr key)) (o : FlatObject) :
    (getBool o.text (cstr key)).getD (-1) =
      if o.get? (cstr key) = some (.int ⟨true, 0⟩) then -1 else o.boolField key := by
  rw [getBool_text hkey, FlatObject.boolField]
  cases o.get? (cstr key) with
  | none => rfl
  | some v =>
    cases v with
    | int n =>
      obtain ⟨neg, mag⟩ := n
      cases neg with
      | true =>
        cases mag with
        | zero => rfl
        | succ n =>
          have h₁ : IntLit.value ⟨true, n + 1⟩ ≠ 1 := by simp [IntLit.value]; omega
          have h₀ : IntLit.value ⟨true, n + 1⟩ ≠ 0 := by simp [IntLit.value]; omega
          simp [h₁, h₀]
      | false =>
        match mag with
        | 0 => rfl
        | 1 => rfl
        | n + 2 =>
          have h₁ : IntLit.value ⟨false, n + 2⟩ ≠ 1 := by simp [IntLit.value]; omega
          have h₀ : IntLit.value ⟨false, n + 2⟩ ≠ 0 := by simp [IntLit.value]; omega
          simp [h₁, h₀]
    | str s => rfl
    | bool b => cases b <;> rfl
    | null => rfl

/-- The keys of the protocol. -/
def protoKeys : List String := ["cmd", "id", "r", "g", "b", "brightness", "debounce_ms", "on"]

theorem keyName (key : String) (h : key ∈ protoKeys) : KeyName (cstr key) := by
  have hkeys : ∀ key ∈ protoKeys, quote ∉ cstr key ∧
      (cstr key).head?.all (fun c => !isSep c) = true := by
    decide
  exact ⟨(hkeys key h).1, (hkeys key h).2⟩

/-- **What `proto_parse` finds**: what the object says, with the one miss. -/
theorem protoParse_text (o : FlatObject) : protoParse o.text =
    if o.LampNegZero then (true, { ProtoCmd.absent with type := .lamp }) else o.command := by
  have hcmd := getStr_text (keyName "cmd" (by decide)) o 16
  have hid := getInt_getD (keyName "id" (by decide)) o
  have hr := getInt_getD (keyName "r" (by decide)) o
  have hg := getInt_getD (keyName "g" (by decide)) o
  have hb := getInt_getD (keyName "b" (by decide)) o
  have hbrightness := getInt_getD (keyName "brightness" (by decide)) o
  have hdebounce := getInt_getD (keyName "debounce_ms" (by decide)) o
  have hon := getBool_getD (keyName "on" (by decide)) o
  have hverb : getStr o.text (cstr "cmd") 16 = o.verb?.map (·.take 15) := by
    rw [hcmd, FlatObject.verb?]
    cases o.get? (cstr "cmd") with
    | none => rfl
    | some v => cases v <;> rfl
  unfold protoParse
  rw [hverb, hid, hr, hg, hb, hbrightness, hdebounce, hon]
  cases hv : o.verb? with
  | none =>
    have hlamp : ¬ o.LampNegZero := fun h => by
      rw [FlatObject.LampNegZero, hv] at h
      cases h.1
    rw [if_neg hlamp, FlatObject.command, hv]
    rfl
  | some verb =>
    have hring := take_eq_verb (l := verb) (w := cstr "ring") (n := 15) (by decide)
    have hlamp := take_eq_verb (l := verb) (w := cstr "lamp") (n := 15) (by decide)
    have hconfig := take_eq_verb (l := verb) (w := cstr "config") (n := 15) (by decide)
    have hping := take_eq_verb (l := verb) (w := cstr "ping") (n := 15) (by decide)
    have hota := take_eq_verb (l := verb) (w := cstr "ota") (n := 15) (by decide)
    have hhello := take_eq_verb (l := verb) (w := cstr "hello") (n := 15) (by decide)
    have hcommand : o.command = (true, o.fields (.named verb)) := by
      rw [FlatObject.command, hv]
    simp only [Option.map_some, hring, hlamp, hconfig, hping, hota, hhello, hcommand, CmdType.named]
    by_cases hneg : o.LampNegZero
    · obtain rfl : verb = cstr "lamp" := by
        rw [FlatObject.LampNegZero, hv] at hneg
        exact Option.some.inj hneg.1
      have hne : cstr "lamp" ≠ cstr "ring" := by decide
      rw [if_pos hneg, if_neg hne, if_pos rfl, if_pos hneg.2]
      rfl
    · rw [if_neg hneg]
      have hon : verb = cstr "lamp" → o.get? (cstr "on") ≠ some (.int ⟨true, 0⟩) := by
        rintro rfl hzero
        exact hneg ⟨hv, hzero⟩
      split_ifs with h₁ h₂ h₃
      · rfl
      · exact absurd h₃ (hon h₂)
      all_goals rfl

theorem protoParse_verb {o : FlatObject} {verb : String} (h : o.verb? = some (cstr verb))
    (hzero : ¬ o.LampNegZero) :
    protoParse o.text = (true, o.fields (.named (cstr verb))) := by
  rw [protoParse_text, if_neg hzero, FlatObject.command, h]

/-- **The parser is right on a flat object** unless it switches the lamp to `-0`. -/
theorem protoParse_command_iff (o : FlatObject) :
    protoParse o.text = o.command ↔ ¬ o.LampNegZero := by
  rw [protoParse_text]
  split
  · rename_i hneg
    have hon : (o.command).2.on = 0 := by
      rw [FlatObject.command, hneg.1]
      show (o.fields (.named (cstr "lamp"))).on = 0
      rw [show CmdType.named (cstr "lamp") = .lamp by decide]
      show o.boolField "on" = 0
      rw [FlatObject.boolField, hneg.2]
      rfl
    refine ⟨fun heq => ?_, fun h => absurd hneg h⟩
    rw [← heq] at hon
    exact absurd hon (by decide)
  · rename_i hneg
    exact ⟨fun _ => hneg, fun _ => rfl⟩

/-- The switch off, written `-0`. -/
def lampNegZero : FlatObject := .tight
  [.tight .cmd (.str .lamp),
    .tight .on (.int ⟨true, 0⟩)] (by decide +kernel)

example : lampNegZero.text = cstr "\x7b\"cmd\":\"lamp\",\"on\":-0\x7d" := by decide

/-- The integer zero is not taken for off. -/
theorem protoParse_lampNegZero : ¬ ∀ o : FlatObject, protoParse o.text = o.command := by
  intro h
  exact absurd (h lampNegZero) (by decide)

end EthPanel
