import EthPanel.App.Heeded
import EthPanel.Driver.HandleLine

/-!
# `panel_live.py`: from what is typed to what is sent

The console reads its input in whatever pieces `os.read` brings, cuts it into lines, and makes a
command of each (`build_command`) or tells its user why not. A command is a dictionary that is
dumped, or with `raw` a text that is sent as it is.

`PanelDict.request` is what a dictionary asks the device for. The device takes it for that
(`PanelDict.takes`): the integers are typed in, so the line may be too long for it, but then it is
for no ring or for no debounce time anyway.
-/

namespace EthPanel

open Json (Text)
open Terminated (wire)

/-- The two functions on strings that go by the tables of Unicode. -/
structure PyText where
  /-- `str.lower`. -/
  lower : Text → Text
  /-- `int`, or its `ValueError`. -/
  int : Text → Option ℤ

/-- `str.split` without arguments. -/
def pySplit (s : Text) : List Text := (s.splitOnP isPySpace).filter fun word => !word.isEmpty

/-! ## `build_command` -/

/-- What `_int_args` lets pass. -/
abbrev ByteInt := { v : ℤ // 0 ≤ v ∧ v ≤ 255 }

/-- The dictionary that is dumped. -/
inductive PanelDict
  | ring (id : ℤ) (r g b : ByteInt) (brightness : Option ByteInt)
  | lamp (on : Bool)
  | config (debounceMs : ℤ)
  | ping
  | ota
  deriving DecidableEq

inductive PanelCmd
  | dict (d : PanelDict)
  | raw (rest : Text)
  deriving DecidableEq

/-- What `build_command` raises. -/
inductive BuildError
  /-- `Quit`. -/
  | quit
  /-- The `IndexError` of `parts[0]`. -/
  | noWord
  /-- The `ValueError`s: the program's own, and that of `int`. -/
  | usage (msg : String)
  | outOfRange (v : ℤ)
  | unknown (verb : Text)
  | notInt (word : Text)

section Build

variable (py : PyText)

/-- `int`. -/
def readInt (word : Text) : Except BuildError ℤ :=
  match py.int word with
  | some v => .ok v
  | none => .error (.notInt word)

/-- A turn of the loop of `_int_args`. -/
def intArg (word : Text) : Except BuildError ByteInt := do
  let v ← readInt py word
  if h : 0 ≤ v ∧ v ≤ 255 then return ⟨v, h⟩ else .error (.outOfRange v)

/-! The commands with arguments, branch by branch. -/

def ringDict : List Text → Except BuildError PanelDict
  | [id, r, g, b] => do
    return .ring (← readInt py id) (← intArg py r) (← intArg py g) (← intArg py b) none
  | [id, r, g, b, brightness] => do
    return .ring (← readInt py id) (← intArg py r) (← intArg py g) (← intArg py b)
      (some (← intArg py brightness))
  | _ => .error (.usage "usage: ring <id> <r> <g> <b> [brightness]")

def lampDict : List Text → Except BuildError PanelDict
  | [switch] =>
    let word := py.lower switch
    if word = Json.text "on" ∨ word = Json.text "1" then .ok (.lamp true)
    else if word = Json.text "off" ∨ word = Json.text "0" then .ok (.lamp false)
    else .error (.usage "usage: lamp on|off")
  | _ => .error (.usage "usage: lamp on|off")

def configDict : List Text → Except BuildError PanelDict
  | [ms] => do return .config (← readInt py ms)
  | _ => .error (.usage "usage: config <debounce_ms>")

/-- `build_command`; `none` for `help`. -/
def buildCommand (line : Text) : Except BuildError (Option PanelCmd) :=
  match pySplit line with
  | [] => .error .noWord
  | part :: args =>
    let verb := py.lower part
    if verb = Json.text "quit" ∨ verb = Json.text "exit" then .error .quit
    else if verb = Json.text "help" then .ok none
    else if verb = Json.text "ring" then (ringDict py args).map fun d => some (.dict d)
    else if verb = Json.text "lamp" then (lampDict py args).map fun d => some (.dict d)
    else if verb = Json.text "config" then (configDict py args).map fun d => some (.dict d)
    else if verb = Json.text "ping" then .ok (some (.dict .ping))
    else if verb = Json.text "ota" then .ok (some (.dict .ota))
    else if verb = Json.text "raw" then
      let rest := pyStrip (line.drop part.length)
      if rest = [] then .error (.usage "usage: raw <json>") else .ok (some (.raw rest))
    else .error (.unknown verb)

/-- `handle_input_line`: what it sends, if it does not raise. -/
def handleInputLine (line : Text) : Except BuildError (Option PanelCmd) :=
  if pyStrip line = [] then .ok none
  else
    match buildCommand py (pyStrip line) with
    | .ok cmd => .ok cmd
    | .error .quit => .error .quit
    | .error .noWord => .error .noWord
    -- The user is told.
    | .error _ => .ok none

/-- The loop over the lines in `inbuf`: what it sends, and whether it has raised. -/
def handleLines : List (List UInt8) → List PanelCmd × Bool
  | [] => ([], false)
  | line :: lines =>
    match handleInputLine py (decodeReplace line) with
    | .error _ => ([], true)
    | .ok none => handleLines lines
    | .ok (some cmd) => (cmd :: (handleLines lines).1, (handleLines lines).2)

/-! ### What it raises -/

theorem pyStrip_head {s rest : Text} {c : ℕ} (h : pyStrip s = c :: rest) : isPySpace c = false := by
  have hprefix : c :: rest <+: s.dropWhile isPySpace := h ▸ List.rdropWhile_prefix _ _
  obtain ⟨more, hmore⟩ := hprefix
  have hhead := List.head?_dropWhile_not isPySpace s
  rw [← hmore] at hhead
  simpa using hhead

theorem pySplit_cons {c : ℕ} (h : isPySpace c = false) (s : Text) : pySplit (c :: s) ≠ [] := by
  rw [pySplit, List.splitOnP_cons_eq_if_modifyHead, if_neg (by rw [h]; exact Bool.false_ne_true)]
  cases hrest : s.splitOnP isPySpace with
  | nil => exact absurd hrest (List.splitOnP_ne_nil _ _)
  | cons word words => simp

/-- Something raises anything but an `IndexError`. -/
def NoIndexError {α : Type*} (x : Except BuildError α) : Prop := x ≠ .error .noWord

theorem NoIndexError.bind {α β : Type} {x : Except BuildError α} {f : α → Except BuildError β}
    (hx : NoIndexError x) (hf : ∀ a, NoIndexError (f a)) : NoIndexError (x >>= f) := by
  cases x with
  | error e => exact fun h => hx (congrArg _ (Except.error.inj h))
  | ok a => exact hf a

theorem NoIndexError.map {α β : Type} {x : Except BuildError α} {f : α → β}
    (hx : NoIndexError x) : NoIndexError (x.map f) := by
  cases x with
  | error e => exact fun h => hx (congrArg _ (Except.error.inj h))
  | ok a => nofun

theorem readInt_noIndexError (word : Text) : NoIndexError (readInt py word) := by
  unfold readInt
  cases py.int word <;> nofun

theorem intArg_noIndexError (word : Text) : NoIndexError (intArg py word) := by
  refine (readInt_noIndexError py word).bind fun v => ?_
  split <;> nofun

theorem ringDict_noIndexError (args : List Text) : NoIndexError (ringDict py args) := by
  unfold ringDict
  split
  · exact (readInt_noIndexError py _).bind fun _ => (intArg_noIndexError py _).bind fun _ =>
      (intArg_noIndexError py _).bind fun _ => (intArg_noIndexError py _).bind fun _ => nofun
  · exact (readInt_noIndexError py _).bind fun _ => (intArg_noIndexError py _).bind fun _ =>
      (intArg_noIndexError py _).bind fun _ => (intArg_noIndexError py _).bind fun _ =>
      (intArg_noIndexError py _).bind fun _ => nofun
  · nofun

theorem lampDict_noIndexError (args : List Text) : NoIndexError (lampDict py args) := by
  unfold lampDict
  split
  · dsimp only
    split_ifs <;> nofun
  · nofun

theorem configDict_noIndexError (args : List Text) : NoIndexError (configDict py args) := by
  unfold configDict
  split
  · exact (readInt_noIndexError py _).bind fun _ => nofun
  · nofun

theorem buildCommand_noIndexError {line : Text} (h : pySplit line ≠ []) :
    NoIndexError (buildCommand py line) := by
  unfold buildCommand
  split
  · contradiction
  · dsimp only
    split_ifs
    · nofun
    · nofun
    · exact (ringDict_noIndexError py _).map
    · exact (lampDict_noIndexError py _).map
    · exact (configDict_noIndexError py _).map
    all_goals nofun

/-- Nothing but `Quit` gets out of `handle_input_line`. -/
theorem handleInputLine_error {line : Text} {e : BuildError}
    (h : handleInputLine py line = .error e) : e = .quit := by
  unfold handleInputLine at h
  split at h
  · cases h
  · rename_i hne
    obtain ⟨c, rest, hline⟩ := List.exists_cons_of_ne_nil hne
    have hword := buildCommand_noIndexError py
      (hline ▸ pySplit_cons (pyStrip_head hline) rest : pySplit (pyStrip line) ≠ [])
    split at h
    · cases h
    · exact (Except.error.inj h).symm
    · rename_i hbuild
      exact absurd hbuild hword
    · cases h

/-- **`quit` ends the session**, and nothing else that is typed. -/
theorem handleLines_raised (lines : List (List UInt8)) : (handleLines py lines).2 = true ↔
    ∃ line ∈ lines, handleInputLine py (decodeReplace line) = .error .quit := by
  induction lines with
  | nil => simp [handleLines]
  | cons line lines ih =>
    rw [List.exists_mem_cons_iff, handleLines]
    cases hcmd : handleInputLine py (decodeReplace line) with
    | error e =>
      rw [handleInputLine_error py hcmd]
      simp
    | ok cmd =>
      cases cmd with
      | none => simpa using ih
      | some cmd => simpa using ih

end Build

/-! ## What is sent -/

/-- An integer as `json.dumps` writes it. -/
def dumpsInt (v : ℤ) : IntLit := ⟨v < 0, v.natAbs⟩

namespace PlainStr

def config : PlainStr := ⟨cstr "config", by decide +kernel⟩
def debounceMs : PlainStr := ⟨cstr "debounce_ms", by decide +kernel⟩
def ota : PlainStr := ⟨cstr "ota", by decide +kernel⟩

end PlainStr

namespace PanelDict

def members : PanelDict → List Member
  | .ring id r g b brightness =>
    [.tight .cmd (.str .ring), .tight .id (.int (dumpsInt id)), .tight .r (.int (dumpsInt r)),
      .tight .g (.int (dumpsInt g)), .tight .b (.int (dumpsInt b))] ++
      (brightness.map fun v : ByteInt => Member.tight .brightness (.int (dumpsInt v))).toList
  | .lamp on => [.tight .cmd (.str .lamp), .tight .on (.bool on)]
  | .config debounceMs =>
    [.tight .cmd (.str .config), .tight .debounceMs (.int (dumpsInt debounceMs))]
  | .ping => [.tight .cmd (.str .ping)]
  | .ota => [.tight .cmd (.str .ota)]

theorem members_distinct (d : PanelDict) : (d.members.map fun m => m.key.bytes).Nodup := by
  cases d with
  | ring id r g b brightness =>
    have hkeys : [cstr "cmd", cstr "id", cstr "r", cstr "g", cstr "b"].Nodup ∧
        [cstr "cmd", cstr "id", cstr "r", cstr "g", cstr "b", cstr "brightness"].Nodup := by
      decide
    cases brightness with
    | none => exact hkeys.1
    | some v => exact hkeys.2
  | lamp on =>
    have hkeys : [cstr "cmd", cstr "on"].Nodup := by decide
    exact hkeys
  | config ms =>
    have hkeys : [cstr "cmd", cstr "debounce_ms"].Nodup := by decide
    exact hkeys
  | ping => exact List.nodup_singleton _
  | ota => exact List.nodup_singleton _

/-- `json.dumps(cmd, separators=(",", ":"))` is its text. -/
def object (d : PanelDict) : FlatObject := .tight d.members d.members_distinct

/-- What it asks for. -/
def request : PanelDict → Request
  | .ring id r g b brightness =>
    let channels i := Request.ring i (some (.ofInt r)) (some (.ofInt g)) (some (.ofInt b))
      (brightness.map fun v : ByteInt => .ofInt v)
    if id = 1 then channels 0 else if id = 2 then channels 1 else .badRing
  | .lamp on => .lamp on
  | .config ms => if 1 ≤ ms ∧ ms ≤ 1000 then .config (.ofInt ms) else .badDebounce
  | .ping => .ping
  | .ota => .ota

/-- What is answered. -/
def answer (d : PanelDict) : Answer :=
  if d.object.text.length ≤ 255 then d.request.answer else .err "line too long"

end PanelDict

/-- What is sent, less the newline. -/
def PanelCmd.payload : PanelCmd → List UInt8
  | .dict d => d.object.text
  | .raw rest => utf8 (rest.map Char.ofNat)

example : (PanelCmd.dict (.config 20)).payload =
    cstr "\x7b\"cmd\":\"config\",\"debounce_ms\":20\x7d" := by
  decide

/-! ## The session -/

/-- The half of `session` that has to do with the input. -/
structure Console where
  inbuf : List UInt8
  sent : List UInt8
  /-- An exception has ended the session. -/
  left : Bool

namespace Console

/-- `os.read` has brought some bytes. -/
def read (py : PyText) (s : Console) (data : List UInt8) : Console :=
  if s.left then s
  else
    let lines := Terminated.read newline (s.inbuf ++ data)
    let handled := handleLines py lines.1
    { inbuf := lines.2
      sent := s.sent ++ wire newline (handled.1.map PanelCmd.payload)
      left := handled.2 }

def run (py : PyText) (pieces : List (List UInt8)) : Console :=
  pieces.foldl (read py) ⟨[], [], false⟩

end Console

/-- The commands in what has been typed. -/
def typed (py : PyText) (input : List UInt8) : List PanelCmd :=
  (handleLines py (Terminated.read newline input).1).1

end EthPanel
