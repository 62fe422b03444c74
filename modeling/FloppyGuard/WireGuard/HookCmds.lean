import FloppyGuard.Lib.FirstBy
import FloppyGuard.WireGuard.HubHooks

/-! The commands of the hooks before and after `_rewriteHubConf`, read from the lines as a shell
would get them. -/
namespace FloppyGuard.WireGuard

open Text

variable {inp : HubInput} {owned conf xs ys : List String} {l : String} {isUp : Bool}
  {cmd : List Char}
  {cmds : List (List Char)}

/-- What stands between the `;` of a hook line. -/
def hookParts (l : String) : List (List Char) := semicolonParts (trim (afterEq l.toList))

/-! The commands of a rewritten line. -/

theorem semicolonParts_singleton (htrim : trim cmd = cmd) (h : ';' ∉ cmd) :
    semicolonParts cmd = [cmd] := by
  rw [semicolonParts, List.splitOn_eq_singleton h, List.map_singleton, htrim]

/-- A line is read back as the parts of the commands written to it. -/
theorem hookParts_hookText (h : ∀ c ∈ cmds, c ≠ [] ∧ trim c = c) :
    hookParts (hookText isUp ("; ".intercalate (cmds.map String.ofList))) =
      if cmds = [] then [[]] else cmds.flatMap semicolonParts := by
  have hvalue : ("; ".intercalate (cmds.map String.ofList)).toList = [';', ' '].intercalate
      cmds := by
    rw [String.toList_intercalate, List.map_map]
    simp [Function.comp_def]
  have heq : afterEq (hookText isUp ("; ".intercalate (cmds.map String.ofList))).toList = ' ' ::
      [';', ' '].intercalate cmds := by
    rw [← hvalue]
    cases isUp <;> simp [hookText, afterEq]
  have htrim : trim (' ' :: [';', ' '].intercalate cmds) = [';', ' '].intercalate cmds := by
    rw [trim, List.dropWhile_cons_of_pos (by decide)]
    exact trim_intercalate _ h
  rw [hookParts, heq, htrim, semicolonParts]
  split
  · next hnil =>
    subst hnil
    rfl
  · next hne => exact map_trim_splitOn_intercalate hne (by decide)

end FloppyGuard.WireGuard
