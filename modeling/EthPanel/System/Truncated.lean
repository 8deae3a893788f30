import EthPanel.App.Truncated
import EthPanel.System.Resynced

/-!
# The driver's lines without their beginning

Every line of the driver begins with the brace and the verb's key, so what the flush of the connect
edge leaves of one does what the whole line does, or nothing.
-/

namespace EthPanel

open Search

def pingObject : FlatObject := .tight
  [.tight .cmd (.str .ping)]
  (by decide +kernel)

def helloObject : FlatObject := .tight
  [.tight .cmd (.str .hello)]
  (by decide +kernel)

theorem utf8_pingCmd : utf8 fmtPingCmd = pingObject.text ++ [newline] := by decide +kernel

theorem utf8_helloCmd : utf8 fmtHelloCmd = helloObject.text ++ [newline] := by decide +kernel

theorem pingObject_cmdFirst : ∃ l : CmdFirst, l.text = pingObject.text :=
  pingObject.cmdFirst rfl rfl rfl rfl fun _ hm => nomatch hm

theorem helloObject_cmdFirst : ∃ l : CmdFirst, l.text = helloObject.text :=
  helloObject.cmdFirst rfl rfl rfl rfl fun _ hm => nomatch hm

theorem cmdObject_cmdFirst (o : Output) (v : o.Value) :
    ∃ l : CmdFirst, l.text = (cmdObject o v).text := by
  cases o with
  | ring id =>
    refine (ringObject id v).cmdFirst rfl rfl rfl rfl ?_
    intro m hm s hs
    simp only [List.mem_cons, List.not_mem_nil, or_false] at hm
    rcases hm with rfl | rfl | rfl | rfl | rfl <;> cases hs
  | lamp =>
    refine (lampObject v).cmdFirst rfl rfl rfl rfl ?_
    intro m hm s hs
    rw [List.mem_singleton] at hm
    subst hm
    cases hs

/-- **A command that lost its beginning is harmless**, and the driver's lines are of the kind this
is about. -/
theorem dispatch_truncated :
    (∀ (a : App) (l : CmdFirst) (s : CString), s.bytes <:+ l.text →
      dispatch a s = (a, [.err "no cmd"]) ∨ dispatch a s = dispatch a l.line) ∧
    (∀ cmd : Command, ∃ l : CmdFirst, utf8 (cmdLine cmd.1 cmd.2) = l.text ++ [newline]) ∧
    (∃ l : CmdFirst, utf8 fmtPingCmd = l.text ++ [newline]) ∧
    ∃ l : CmdFirst, utf8 fmtHelloCmd = l.text ++ [newline] := by
  refine ⟨fun a l s hs => l.dispatch_suffix a hs, fun cmd => ?_, ?_, ?_⟩
  · obtain ⟨l, hl⟩ := cmdObject_cmdFirst cmd.1 cmd.2
    exact ⟨l, by rw [hl, utf8_cmdLine]⟩
  · obtain ⟨l, hl⟩ := pingObject_cmdFirst
    exact ⟨l, by rw [hl, utf8_pingCmd]⟩
  · obtain ⟨l, hl⟩ := helloObject_cmdFirst
    exact ⟨l, by rw [hl, utf8_helloCmd]⟩

/-- The keepalive's line. -/
def pingFirst : CmdFirst where
  mid := Blanks.none.gap
  post := Blanks.none.gap
  verb := .ping
  tail := Blanks.none.gap
  delim := closeBrace
  isDelim := Or.inr rfl
  more := []
  once h := absurd (List.infix_nil.mp h) (List.cons_ne_nil _ _)
  noNul _ hc := nomatch hc

theorem dispatch_truncated_ping :
    let a := App.init fun _ => 0
    let s : CString := .ofBuf (cstr "d\":\"ping\"\x7d")
    dispatch a s = (a, [.err "no cmd"]) ∨ dispatch a s = dispatch a pingFirst.line :=
  dispatch_truncated.1 _ pingFirst _ (by decide +kernel)

end EthPanel
