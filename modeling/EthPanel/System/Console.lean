import EthPanel.Host.PanelLive
import EthPanel.System.Shown

/-!
# What is typed at the console is done

However its input and what it sends are cut into pieces, and whatever else the passes of the loop
do, the device answers and does the commands that have been typed, up to an ota (`console_obeyed`).
-/

namespace EthPanel

open Lts Search
open Json (Text)
open Terminated (wire)

/-! ## A dictionary -/

theorem dumpsInt_value (v : ℤ) : (dumpsInt v).value = v := by
  unfold dumpsInt IntLit.value
  by_cases hv : v < 0
  · simp only [hv, decide_true, if_true]
    omega
  · simp only [hv, decide_false, Bool.false_eq_true, if_false]
    omega

theorem FlatObject.get?_none {o : FlatObject} {key : List UInt8}
    (h : ∀ m ∈ o.members, m.key.bytes ≠ key) : o.get? key = none := by
  have hfind : (o.members.find? fun m => m.key.bytes == key) = none :=
    List.find?_eq_none.mpr fun m hm => by simpa using h m hm
  rw [FlatObject.get?, hfind]
  rfl

namespace PanelDict

theorem get?_member (d : PanelDict) {m : Member} (hm : m ∈ d.members) :
    d.object.get? m.key.bytes = some m.value :=
  (FlatObject.get?_iff _ _ _).mpr ⟨m, hm, rfl, rfl⟩

theorem int?_member (d : PanelDict) (key : PlainStr) {name : String} (hname : key.bytes = cstr name)
    {v : ℤ} (hm : .tight key (.int (dumpsInt v)) ∈ d.members) : d.object.int? name = some v := by
  have hget := d.get?_member hm
  rw [FlatObject.int?, ← hname, show d.object.get? key.bytes = _ from hget]
  exact congrArg some (dumpsInt_value v)

theorem verb?_member (d : PanelDict) (verb : PlainStr) (hm : .tight .cmd (.str verb) ∈ d.members) :
    d.object.verb? = some verb.bytes := by
  have hget := d.get?_member hm
  rw [FlatObject.verb?, show d.object.get? (cstr "cmd") = _ from hget]
  rfl

/-! ### Of a ring -/

section Ring

variable (id : ℤ) (r g b : ByteInt) (brightness : Option ByteInt)

theorem verb?_ring : (ring id r g b brightness).object.verb? = some (cstr "ring") :=
  verb?_member _ .ring (by simp [members])

theorem int?_channels : (ring id r g b brightness).object.int? "r" = some (r : ℤ) ∧
    (ring id r g b brightness).object.int? "g" = some (g : ℤ) ∧
    (ring id r g b brightness).object.int? "b" = some (b : ℤ) :=
  ⟨int?_member _ .r rfl (by simp [members]), int?_member _ .g rfl (by simp [members]),
    int?_member _ .b rfl (by simp [members])⟩

/-- The brightness may have been left out. -/
theorem int?_brightness :
    (ring id r g b brightness).object.int? "brightness" = brightness.map Subtype.val := by
  cases brightness with
  | some v => exact int?_member _ .brightness rfl (by simp [members])
  | none =>
    have hkeys : ∀ key ∈ [PlainStr.cmd, .id, .r, .g, .b], key.bytes ≠ cstr "brightness" := by
      decide
    have hnone : (ring id r g b none).object.get? (cstr "brightness") = none := by
      refine FlatObject.get?_none fun m hm => ?_
      have hm' : m ∈ (ring id r g b none).members := hm
      simp only [members, Option.map_none, Option.toList_none, List.append_nil, List.mem_cons,
        List.not_mem_nil, or_false] at hm'
      rcases hm' with rfl | rfl | rfl | rfl | rfl <;> exact hkeys _ (by simp [Member.tight])
    rw [FlatObject.int?, hnone]
    rfl

theorem byte?_of_int {o : FlatObject} {key : String} {v : Option ByteInt}
    (h : o.int? key = v.map Subtype.val) :
    o.byte? key = some (v.map fun v : ByteInt => .ofInt v) := by
  rw [FlatObject.byte?, h]
  cases v with
  | none => rfl
  | some v => exact if_pos v.2

theorem ring_request :
    (ring id r g b brightness).object.request = (ring id r g b brightness).request := by
  have hnamed : CmdType.named (cstr "ring") = .ring := by decide
  have hid : (ring id r g b brightness).object.int? "id" = some id :=
    int?_member _ .id rfl (by simp [members])
  have hring : (ring id r g b brightness).object.ring? =
      if id = 1 then some 0 else if id = 2 then some 1 else none := by
    rw [FlatObject.ring?, hid]
  obtain ⟨hr, hg, hb⟩ := int?_channels id r g b brightness
  have hbrightness := int?_brightness id r g b brightness
  rw [FlatObject.request, verb?_ring]
  simp only [hnamed, FlatObject.ringRequest, hring, @byte?_of_int _ "r" (some r) hr,
    @byte?_of_int _ "g" (some g) hg, @byte?_of_int _ "b" (some b) hb, byte?_of_int hbrightness]
  by_cases h₁ : id = 1
  · simp only [request, if_pos h₁, Option.map_some]
  · by_cases h₂ : id = 2
    · simp only [request, if_neg h₁, if_pos h₂, Option.map_some]
    · simp only [request, if_neg h₁, if_neg h₂]

/-- No channel is `-1`. -/
theorem not_ringSentinel : ¬ (ring id r g b brightness).object.RingSentinel := by
  rintro ⟨-, -, -, key, hkey, hint⟩
  obtain ⟨hr, hg, hb⟩ := int?_channels id r g b brightness
  have hbrightness := int?_brightness id r g b brightness
  have hneg : ∀ v : ByteInt, (v : ℤ) ≠ -1 := fun v => by
    have hv := v.2.1
    omega
  simp only [FlatObject.channels, List.mem_cons, List.not_mem_nil, or_false] at hkey
  rcases hkey with rfl | rfl | rfl | rfl
  · exact hneg r (Option.some.inj (hr.symm.trans hint))
  · exact hneg g (Option.some.inj (hg.symm.trans hint))
  · exact hneg b (Option.some.inj (hb.symm.trans hint))
  · rw [hbrightness] at hint
    cases brightness with
    | none => cases hint
    | some v => exact hneg v (Option.some.inj hint)

end Ring

/-! ### Of any -/

def verb : PanelDict → List UInt8
  | .ring .. => cstr "ring"
  | .lamp _ => cstr "lamp"
  | .config _ => cstr "config"
  | .ping => cstr "ping"
  | .ota => cstr "ota"

theorem verb?_object (d : PanelDict) : d.object.verb? = some d.verb := by
  cases d with
  | ring id r g b brightness => exact verb?_ring id r g b brightness
  | lamp on => exact verb?_member _ .lamp (by simp [members])
  | config ms => exact verb?_member _ .config (by simp [members])
  | ping => exact verb?_member _ .ping (by simp [members])
  | ota => exact verb?_member _ .ota (by simp [members])

/-- **The object asks for what the dictionary does.** -/
theorem object_request (d : PanelDict) : d.object.request = d.request := by
  have hverb := d.verb?_object
  cases d with
  | ring id r g b brightness => exact ring_request id r g b brightness
  | lamp on =>
    have hnamed : CmdType.named (cstr "lamp") = .lamp := by decide
    have hget : (lamp on).object.get? (cstr "on") = some (.bool on) :=
      @get?_member (lamp on) (.tight .on (.bool on)) (by simp [members])
    rw [FlatObject.request, hverb]
    simp only [verb, hnamed, FlatObject.lampRequest, FlatObject.switch?, hget, request]
  | config ms =>
    have hnamed : CmdType.named (cstr "config") = .config := by decide
    have hms : (config ms).object.int? "debounce_ms" = some ms :=
      int?_member _ .debounceMs rfl (by simp [members])
    rw [FlatObject.request, hverb]
    simp only [verb, hnamed, FlatObject.configRequest, hms, request]
  | ping =>
    have hnamed : CmdType.named (cstr "ping") = .ping := by decide
    rw [FlatObject.request, hverb]
    simp only [verb, hnamed, request]
  | ota =>
    have hnamed : CmdType.named (cstr "ota") = .ota := by decide
    rw [FlatObject.request, hverb]
    simp only [verb, hnamed, request]

theorem dispatched (d : PanelDict) (a : App) : Serves a d.object d.request := by
  have hring : ∀ w ∈ [cstr "lamp", cstr "config", cstr "ping", cstr "ota"], w ≠ cstr "ring" := by
    decide
  have hlamp : ∀ w ∈ [cstr "ring", cstr "config", cstr "ping", cstr "ota"], w ≠ cstr "lamp" := by
    decide
  have hverb := d.verb?_object
  rw [← object_request]
  refine dispatch_request a (fun hsentinel => ?_) fun hzero => ?_
  · have hverb' := Option.some.inj (hverb.symm.trans hsentinel.1)
    cases d with
    | ring id r g b brightness => exact not_ringSentinel id r g b brightness hsentinel
    | _ => exact hring _ (by simp [verb]) hverb'
  · have hverb' := Option.some.inj (hverb.symm.trans hzero.1)
    cases d with
    | lamp on =>
      have hget : (lamp on).object.get? (cstr "on") = some (.bool on) :=
        @get?_member (lamp on) (.tight .on (.bool on)) (by simp [members])
      have hon := hzero.2
      rw [hget] at hon
      cases hon
    | _ => exact hlamp _ (by simp [verb]) hverb'

/-! ### Its text -/

/-- The integers in it. -/
def ints : PanelDict → List ℤ
  | .ring id r g b brightness => [id, r, g, b] ++ (brightness.map Subtype.val).toList
  | .config ms => [ms]
  | .lamp _ | .ping | .ota => []

def keys : List PlainStr := [.cmd, .id, .r, .g, .b, .brightness, .on, .debounceMs]

/-- The values that are no integers. -/
def words : List Scalar :=
  [.str .ring, .str .lamp, .str .config, .str .ping, .str .ota, .bool true, .bool false]

theorem mem_members {d : PanelDict} {m : Member} (h : m ∈ d.members) :
    ∃ key ∈ keys, ∃ value, m = .tight key value ∧
      (value ∈ words ∨ ∃ v ∈ d.ints, value = .int (dumpsInt v)) := by
  have hcmd : PlainStr.cmd ∈ keys := by decide
  cases d with
  | ring id r g b brightness =>
    rcases List.mem_append.mp h with h | h
    · simp only [List.mem_cons, List.not_mem_nil, or_false] at h
      rcases h with rfl | rfl | rfl | rfl | rfl
      · exact ⟨.cmd, hcmd, _, rfl, Or.inl (by decide)⟩
      · exact ⟨.id, by decide, _, rfl, Or.inr ⟨id, by simp [ints], rfl⟩⟩
      · exact ⟨.r, by decide, _, rfl, Or.inr ⟨r, by simp [ints], rfl⟩⟩
      · exact ⟨.g, by decide, _, rfl, Or.inr ⟨g, by simp [ints], rfl⟩⟩
      · exact ⟨.b, by decide, _, rfl, Or.inr ⟨b, by simp [ints], rfl⟩⟩
    · obtain ⟨v, rfl, rfl⟩ := Option.map_eq_some_iff.mp (Option.mem_toList.mp h)
      exact ⟨.brightness, by decide, _, rfl, Or.inr ⟨v, by simp [ints], rfl⟩⟩
  | lamp on =>
    simp only [members, List.mem_cons, List.not_mem_nil, or_false] at h
    rcases h with rfl | rfl
    · exact ⟨.cmd, hcmd, _, rfl, Or.inl (by decide)⟩
    · refine ⟨.on, by decide, _, rfl, Or.inl ?_⟩
      cases on <;> decide
  | config ms =>
    simp only [members, List.mem_cons, List.not_mem_nil, or_false] at h
    rcases h with rfl | rfl
    · exact ⟨.cmd, hcmd, _, rfl, Or.inl (by decide)⟩
    · exact ⟨.debounceMs, by decide, _, rfl, Or.inr ⟨ms, by simp [ints], rfl⟩⟩
  | ping =>
    obtain rfl := List.mem_singleton.mp h
    exact ⟨.cmd, hcmd, _, rfl, Or.inl (by decide)⟩
  | ota =>
    obtain rfl := List.mem_singleton.mp h
    exact ⟨.cmd, hcmd, _, rfl, Or.inl (by decide)⟩

theorem newline_not_mem_text (d : PanelDict) : newline ∉ d.object.text := by
  have hkeys : ∀ key ∈ keys, newline ∉ key.bytes := by decide
  have hwords : ∀ value ∈ words, newline ∉ value.text := by decide
  intro h
  rcases FlatObject.mem_text h with h | h | ⟨m, hm, h⟩
  · exact absurd h (by decide)
  · exact absurd h (by decide)
  obtain ⟨key, hkey, value, rfl, hvalue⟩ := mem_members hm
  rcases Member.mem_text h with h | h | h | h
  · exact absurd h (by decide)
  · exact absurd h (by decide)
  · exact hkeys key hkey h
  · rcases hvalue with hword | ⟨v, -, rfl⟩
    · exact hwords value hword h
    · rcases IntLit.mem_text h with h | h
      · exact absurd h (by decide)
      · exact absurd h (by decide)

theorem length_moreText {ms : List Member} {n : ℕ} (h : ∀ m ∈ ms, m.text.length ≤ n) :
    (moreText [] ms).length ≤ ms.length * (n + 1) + 1 := by
  induction ms with
  | nil => simp [moreText]
  | cons m ms ih =>
    have hm := h m List.mem_cons_self
    have hms := ih fun m' hm' => h m' (List.mem_cons_of_mem m hm')
    rw [moreText, List.length_cons, List.length_append, List.length_cons, Nat.succ_mul]
    omega

theorem length_dumpsInt {v : ℤ} (hv : 0 ≤ v ∧ v ≤ 1000) : (dumpsInt v).text.length ≤ 4 := by
  have hneg : ¬ v < 0 := by omega
  rw [dumpsInt, IntLit.text, decide_eq_false hneg, if_neg Bool.false_ne_true, List.nil_append,
    length_utf8_decimal, decimal, Nat.length_toDigits_le_iff (by omega) (by omega)]
  show v.natAbs < 10 ^ 4
  omega

/-- Integers of four digits make no long line. -/
theorem length_text (d : PanelDict) (h : ∀ v ∈ d.ints, 0 ≤ v ∧ v ≤ 1000) :
    d.object.text.length ≤ 255 := by
  have hkeys : ∀ key ∈ keys, key.bytes.length ≤ 11 := by decide
  have hwords : ∀ value ∈ words, value.text.length ≤ 8 := by decide
  have hmembers : ∀ m ∈ d.members, m.text.length ≤ 22 := by
    intro m hm
    obtain ⟨key, hkey, value, rfl, hvalue⟩ := mem_members hm
    have hlen : value.text.length ≤ 8 := by
      rcases hvalue with hword | ⟨v, hv, rfl⟩
      · exact hwords value hword
      · exact (length_dumpsInt (h v hv)).trans (by omega)
    have hkey := hkeys key hkey
    simp only [Member.text, Member.tight, Blanks.none, quoted, List.nil_append, List.append_nil,
      List.length_append, List.length_cons, List.length_nil]
    omega
  have hcount : d.members.length ≤ 6 := by
    cases d with
    | ring id r g b brightness => cases brightness <;> simp [members]
    | _ => simp [members]
  have hmore := length_moreText hmembers
  have htext : d.object.text.length ≤ (moreText [] d.members).length + 1 := by
    show (openBrace :: membersText [] d.members).length ≤ _
    rw [List.length_cons]
    cases d.members with
    | nil => exact Nat.le_refl _
    | cons m ms =>
      rw [membersText, moreText, List.length_cons]
      omega
  omega

/-- What would be done does not go into a long line. -/
theorem length_text_of_request (d : PanelDict) (hring : d.request ≠ .badRing)
    (hms : d.request ≠ .badDebounce) : d.object.text.length ≤ 255 := by
  refine d.length_text ?_
  cases d with
  | ring id r g b brightness =>
    have hid : id = 1 ∨ id = 2 := by
      by_contra hne
      obtain ⟨h₁, h₂⟩ := not_or.mp hne
      exact hring (by simp only [request, h₁, h₂, if_false])
    have hbyte : ∀ v : ByteInt, 0 ≤ (v : ℤ) ∧ (v : ℤ) ≤ 1000 := fun v => by
      have hv := v.2
      omega
    intro v hv
    rcases List.mem_append.mp hv with hv | hv
    · simp only [List.mem_cons, List.not_mem_nil, or_false] at hv
      rcases hv with rfl | rfl | rfl | rfl
      · omega
      · exact hbyte r
      · exact hbyte g
      · exact hbyte b
    · obtain ⟨v, rfl, rfl⟩ := Option.map_eq_some_iff.mp (Option.mem_toList.mp hv)
      exact hbyte v
  | config ms =>
    intro v hv
    obtain rfl := List.mem_singleton.mp hv
    by_contra hout
    have hwindow : ¬ (1 ≤ v ∧ v ≤ 1000) := by omega
    exact hms (if_neg hwindow)
  | lamp on => exact fun v hv => absurd hv List.not_mem_nil
  | ping => exact fun v hv => absurd hv List.not_mem_nil
  | ota => exact fun v hv => absurd hv List.not_mem_nil

theorem request_eq_ota (d : PanelDict) : d.request = .ota ↔ d = .ota := by
  cases d with
  | ring id r g b brightness =>
    simp only [request]
    split_ifs <;> simp
  | lamp on => simp [request]
  | config ms =>
    simp only [request]
    split_ifs <;> simp
  | ping => simp [request]
  | ota => simp [request]

/-- **The device takes the line for what was typed.** -/
theorem takes (d : PanelDict) : Takes d.object.text d.request d.answer := by
  have hnewline := d.newline_not_mem_text
  by_cases hlen : d.object.text.length ≤ 255
  · have hwhole : WholeLine d.object.text := by
      refine ⟨?_, hlen, fun b hb => ⟨?_, d.object.noNul b hb⟩⟩
      · simp [FlatObject.text]
      · rintro rfl
        exact hnewline hb
    rw [answer, if_pos hlen]
    refine Takes.of_dispatch hwhole fun a => ?_
    rw [CString.ofBuf_eq d.object.noNul]
    exact d.dispatched a
  · have hbad : d.request = .badRing ∨ d.request = .badDebounce := by
      by_contra hne
      obtain ⟨hring, hms⟩ := not_or.mp hne
      exact hlen (d.length_text_of_request hring hms)
    have hsilent : ∀ s, d.request.perform s = s := by
      rcases hbad with h | h
      · exact fun s => by rw [h]; rfl
      · exact fun s => by rw [h]; rfl
    have hnot : d.request ≠ .ota := by
      rcases hbad with h | h
      · rw [h]
        exact Request.noConfusion
      · rw [h]
        exact Request.noConfusion
    have houts := lineOuts_long hnewline (Nat.lt_of_not_le hlen)
    have herr := @sendErr_eq "line too long" (by decide)
    rw [answer, if_neg hlen]
    refine ⟨hnewline, fun a => ?_, fun a => ?_, ?_⟩
    · rw [houts, hsilent]
      rfl
    · rw [houts, actAll, actAll, LineOut.act, herr]
      rfl
    · rw [lineAsks, houts, decide_eq_false hnot]
      rfl

end PanelDict

/-! ## The input -/

section Typed

variable (py : PyText)

theorem handleLines_append (lines lines' : List (List UInt8)) :
    handleLines py (lines ++ lines') = if (handleLines py lines).2 then handleLines py lines else
      ((handleLines py lines).1 ++ (handleLines py lines').1, (handleLines py lines').2) := by
  induction lines with
  | nil => rfl
  | cons line lines ih =>
    cases hcmd : handleInputLine py (decodeReplace line) with
    | error e => simp only [List.cons_append, handleLines, hcmd, if_true]
    | ok cmd =>
      cases cmd with
      | none => simp only [List.cons_append, handleLines, hcmd, ih]
      | some cmd =>
        simp only [List.cons_append, handleLines, hcmd, ih]
        split_ifs <;> rfl

/-- What has been typed, and then more. -/
theorem typed_append (buf data : List UInt8) : typed py (buf ++ data) =
    if (handleLines py (Terminated.read newline buf).1).2 then typed py buf
    else typed py buf ++ typed py ((Terminated.read newline buf).2 ++ data) := by
  rw [typed, Terminated.read_append, handleLines_append]
  split_ifs <;> rfl

theorem Console.foldl_left {s : Console} (h : s.left = true) (pieces : List (List UInt8)) :
    pieces.foldl (Console.read py) s = s := by
  induction pieces with
  | nil => rfl
  | cons data pieces ih => rw [List.foldl_cons, Console.read, if_pos h, ih]

theorem Console.read_eq {s : Console} (h : s.left = false) (data : List UInt8) :
    s.read py data = ⟨(Terminated.read newline (s.inbuf ++ data)).2,
      s.sent ++ wire newline ((typed py (s.inbuf ++ data)).map PanelCmd.payload),
      (handleLines py (Terminated.read newline (s.inbuf ++ data)).1).2⟩ := by
  have hstays : ¬ s.left = true := by
    rw [h]
    exact Bool.false_ne_true
  rw [Console.read, if_neg hstays]
  rfl

theorem Console.foldl_sent {s : Console} (hleft : s.left = false) (hinbuf : newline ∉ s.inbuf)
    (pieces : List (List UInt8)) :
    (pieces.foldl (Console.read py) s).sent = s.sent ++
      wire newline ((typed py (s.inbuf ++ pieces.flatten)).map PanelCmd.payload) := by
  induction pieces generalizing s with
  | nil =>
    rw [List.flatten_nil, List.append_nil, typed, Terminated.read_rest hinbuf]
    exact (List.append_nil _).symm
  | cons data pieces ih =>
    rw [List.foldl_cons, List.flatten_cons, ← List.append_assoc, Console.read_eq py hleft,
      typed_append py (s.inbuf ++ data)]
    cases hraised : (handleLines py (Terminated.read newline (s.inbuf ++ data)).1).2 with
    | true =>
      rw [Console.foldl_left py rfl, if_pos rfl]
    | false =>
      rw [ih rfl (Terminated.not_mem_read _), if_neg Bool.false_ne_true, List.map_append,
        Terminated.wire_append, List.append_assoc]

/-- **The pieces make no difference**: what is sent is made of what has been typed. -/
theorem Console.run_sent (pieces : List (List UInt8)) : (Console.run py pieces).sent =
    wire newline ((typed py pieces.flatten).map PanelCmd.payload) :=
  Console.foldl_sent py rfl List.not_mem_nil pieces

end Typed

/-! ## Both -/

/-- **What is typed is done**, up to an ota. The console's client is the one that the device has had
since it was last in no line (`hphase`, `hline`): a pass that sees one connect (`hpeer`) drops a
half-read line and what is in the ring, so a command may be lost there. -/
theorem console_obeyed (py : PyText) {pieces : List (List UInt8)} {ds : List PanelDict}
    (hds : typed py pieces.flatten = ds.map .dict) {s t : MainLoop} {k : List MainEvent}
    (r : Run MainStep s k t) (hphase : ∀ rx, s.phase ≠ .reading rx) (hline : s.line = .fresh)
    (hup : s.app.rebooting = false) (hpeer : seesConnect s.peerWasConnected k = false)
    (hread : bytesRead k <+: (Console.run py pieces).sent)
    (hend : bytesRead k = (Console.run py pieces).sent ∧ t.phase = .top ∨
      t.app.rebooting = true) :
    t.sent.filterMap ProtoEvent.answer? = s.sent.filterMap ProtoEvent.answer? ++
        (Terminated.through (fun d => d = .ota) ds).map PanelDict.answer ∧
      t.app.settings = performAll s.app.settings
        ((Terminated.through (fun d => d = .ota) ds).map PanelDict.request) ∧
      t.app.rebooting = decide (PanelDict.ota ∈ ds) := by
  have hsent : (Console.run py pieces).sent = wire newline (ds.map fun d => d.object.text) := by
    rw [Console.run_sent, hds, List.map_map]
    rfl
  rw [hsent] at hread hend
  obtain ⟨hanswers, hsettings, hreboot⟩ :=
    taken (fun d _ => PanelDict.takes d) r hphase hline hup hpeer hread hend
  have hthrough : Terminated.through (fun d : PanelDict => d.request = .ota) ds =
      Terminated.through (fun d => d = .ota) ds :=
    Terminated.through_congr fun d _ => decide_eq_decide.mpr d.request_eq_ota
  rw [hthrough] at hanswers
  refine ⟨hanswers, ?_, ?_⟩
  · rw [hsettings, ← hthrough]
    exact congrArg _ (Terminated.through_map _ PanelDict.request ds)
  · rw [hreboot]
    refine decide_eq_decide.mpr ?_
    rw [List.mem_map]
    constructor
    · rintro ⟨d, hd, hota⟩
      exact (d.request_eq_ota.mp hota) ▸ hd
    · exact fun hota => ⟨.ota, hota, rfl⟩

/-- Python's two functions, as far as ASCII goes. -/
def asciiText : PyText where
  lower s := s.map fun c => if 0x41 ≤ c ∧ c ≤ 0x5A then c + 0x20 else c
  int s := if s ≠ [] ∧ ∀ c ∈ s, 0x30 ≤ c ∧ c ≤ 0x39 then some (Json.digitsVal s) else none

/-- Two commands, cut in the middle of the second, and a usage error between them. -/
def typedPieces : List (List UInt8) := [cstr "Lamp on\nlamp\n  ring 1 0", cstr " 9 0\n"]

def typedDicts : List PanelDict :=
  [.lamp true, .ring 1 ⟨0, by decide⟩ ⟨9, by decide⟩ ⟨0, by decide⟩ none]

def typedEvents : List MainEvent :=
  [.sample (fun _ => false) 0, .read (Console.run asciiText typedPieces).sent] ++
    List.replicate 65 .byte ++ [.flush]

/-- The lamp is lit, and so is ring 1. -/
theorem console_obeyed_lamp_ring : ∃ t, Run MainStep firstClient typedEvents t ∧
    t.app.settings.lamp = true ∧ t.app.settings.rings 0 = ⟨0, 9, 0, 255⟩ ∧
    t.sent.filterMap ProtoEvent.answer? = [.hello, .ack "lamp", .ack "ring"] := by
  obtain ⟨t, r, htop⟩ := @MainLoop.run_to_top firstClient typedEvents (by decide)
  have hds : typed asciiText typedPieces.flatten = typedDicts.map .dict := by decide
  have hread : bytesRead typedEvents = (Console.run asciiText typedPieces).sent := by
    decide
  obtain ⟨hanswers, hsettings, -⟩ := console_obeyed asciiText hds r firstClient_out rfl rfl
    (by decide) (hread ▸ List.prefix_rfl)
    (Or.inl ⟨hread, htop⟩)
  refine ⟨t, r, ?_, ?_, ?_⟩
  · rw [hsettings]
    rfl
  · rw [hsettings]
    rfl
  · rw [hanswers]
    decide

end EthPanel
