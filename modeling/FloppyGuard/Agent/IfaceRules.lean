import FloppyGuard.Lib.Numbered

/-! Exact copies of the rules for the WireGuard interface (`dedupe_iface_rules` in `agent.js`), and
what a packet meets in a chain. The lines are those of `iptables -S`, without the policy. -/
namespace FloppyGuard.IfaceRules

/-- `(^| )-[io] iface( |$)`, over the words of the line. -/
def namesIface (iface line : String) : Bool :=
  let words := line.toList.splitOn ' '
  (words.zip words.tail).any fun pair => (pair.1 == "-i".toList || pair.1 == "-o".toList) &&
    pair.2 == iface.toList

/-- ` -j (ACCEPT|DROP|RETURN|MASQUERADE)$`. -/
def terminal (line : String) : Bool :=
  ["ACCEPT", "DROP", "RETURN", "MASQUERADE"].any fun target =>
    (" -j " ++ target).toList.isSuffixOf line.toList

def subject (iface line : String) : Bool := namesIface iface line && terminal line

/-- The scan of the chain: a rule that has been seen is marked. -/
def marks (iface : String) : List String → List String → List (String × Bool)
  | _, [] => []
  | seen, line :: lines =>
    if subject iface line then (line, seen.contains line) :: marks iface (line :: seen) lines
    else (line, false) :: marks iface seen lines

/-- `dedupe_iface_rules` for one chain; `done` are the numbers whose `iptables -D` succeeds. -/
def dedupeIfaceRules (done : ℕ → Bool) (iface : String) (lines : List String) : List String :=
  (Numbered.numbers 1 (marks iface [] lines)).foldl (fun chain n => if done n then
    Numbered.delete chain n else chain) lines

/-- The rules a packet hits, in order, up to the first that ends its way through the chain. -/
def trail (hit ends : String → Bool) : List String → List String
  | [] => []
  | line :: lines =>
    if hit line then (if ends line then [line] else line :: trail hit ends lines)
      else trail hit ends lines

variable {iface line : String} {seen lines out : List String} {hit ends : String → Bool}

/-- Some copies of rules that have been seen are left out. -/
inductive Thinned (iface : String) : List String → List String → List String → Prop
  | nil (seen : List String) : Thinned iface seen [] []
  | first {seen lines out : List String} {line : String} (hsubject : subject iface line = true) :
      Thinned iface (line :: seen) lines out → Thinned iface seen (line :: lines) (line :: out)
  | other {seen lines out : List String} {line : String} (hother : subject iface line = false) :
      Thinned iface seen lines out → Thinned iface seen (line :: lines) (line :: out)
  | copy {seen lines out : List String} {line : String} (hmem : line ∈ seen) :
      Thinned iface (line :: seen) lines out → Thinned iface seen (line :: lines) out

theorem thinned_marks (done : ℕ → Bool) (k : ℕ) :
    Thinned iface seen lines (Numbered.kept (Numbered.thin done k (marks iface seen lines))) := by
  induction lines generalizing seen k with
  | nil => exact .nil seen
  | cons line lines ih =>
    unfold marks
    split
    · next hsubject =>
      cases hmark : seen.contains line && done k with
      | true =>
        have hmem : line ∈ seen := by simpa using (Bool.and_eq_true_iff.mp hmark).1
        have hkept : Numbered.kept
          (Numbered.thin done k ((line, seen.contains line) :: marks iface (line :: seen) lines)) =
            Numbered.kept (Numbered.thin done (k + 1) (marks iface (line :: seen) lines)) := by
          simp only [Numbered.thin, Numbered.kept, hmark, Bool.not_true, List.filter_cons_of_neg,
            Bool.false_eq_true,
            not_false_eq_true]
        rw [hkept]
        exact .copy hmem (ih (k + 1))
      | false =>
        have hkept : Numbered.kept
          (Numbered.thin done k ((line, seen.contains line) :: marks iface (line :: seen) lines)) =
            line ::
              Numbered.kept (Numbered.thin done (k + 1) (marks iface (line :: seen) lines)) := by
          simp only [Numbered.thin, Numbered.kept, Numbered.entries, hmark, Bool.not_false,
            List.filter_cons_of_pos,
            List.map_cons]
        rw [hkept]
        exact .first hsubject (ih (k + 1))
    · next hother =>
      have hkept : Numbered.kept (Numbered.thin done k ((line, false) :: marks iface seen lines)) =
          line :: Numbered.kept (Numbered.thin done (k + 1) (marks iface seen lines)) := by
        simp [Numbered.thin, Numbered.kept, Numbered.entries]
      rw [hkept]
      exact .other (by simpa using hother) (ih (k + 1))

theorem entries_marks (seen lines : List String) :
    Numbered.entries (marks iface seen lines) = lines := by
  induction lines generalizing seen with
  | nil => rfl
  | cons line lines ih =>
    unfold marks
    split
    · exact congrArg (line :: ·) (ih (line :: seen))
    · exact congrArg (line :: ·) (ih seen)

theorem thinned_dedupe (done : ℕ → Bool) (lines : List String) :
    Thinned iface [] lines (dedupeIfaceRules done iface lines) := by
  have hrun := Numbered.delete_some (m := marks iface [] lines) done
  rw [entries_marks] at hrun
  rw [dedupeIfaceRules, hrun]
  exact thinned_marks done 1

/-- A packet that hit none of the rules seen before goes the same way. -/
theorem Thinned.trail (h : Thinned iface seen lines out)
    (hends : ∀ line, subject iface line = true → ends line = true)
    (hseen : ∀ line ∈ seen, hit line = false) :
    IfaceRules.trail hit ends out = IfaceRules.trail hit ends lines := by
  induction h with
  | nil => rfl
  | @first seen lines out line hsubject _ ih =>
    rw [IfaceRules.trail, IfaceRules.trail]
    cases hhit : hit line with
    | true => simp [hends line hsubject]
    | false => exact ih (List.forall_mem_cons.mpr ⟨hhit, hseen⟩)
  | other _ _ ih => rw [IfaceRules.trail, IfaceRules.trail, ih hseen]
  | @copy seen lines out line hmem _ ih =>
    have hhit : hit line = false := hseen line hmem
    rw [ih (List.forall_mem_cons.mpr ⟨hhit, hseen⟩), IfaceRules.trail, hhit]
    rfl

/-- With every removal done, a rule for the interface is there once, and not if it was there before.
-/
theorem nodup_marks (iface : String) (seen lines : List String) :
    ((Numbered.kept (marks iface seen lines)).filter (subject iface)).Nodup ∧
    ∀ line ∈ (Numbered.kept (marks iface seen lines)).filter (subject iface), line ∉ seen := by
  induction lines generalizing seen with
  | nil => exact ⟨List.nodup_nil, by simp [marks, Numbered.kept, Numbered.entries]⟩
  | cons line lines ih =>
    unfold marks
    split
    · next hsubject =>
      obtain ⟨hnodup, hnew⟩ := ih (line :: seen)
      cases hmark : seen.contains line with
      | true =>
        have hkept : Numbered.kept ((line, true) :: marks iface (line :: seen) lines) =
            Numbered.kept (marks iface (line :: seen) lines) := by simp [Numbered.kept]
        rw [hkept]
        exact ⟨hnodup, fun x hx hmem => hnew x hx (List.mem_cons_of_mem _ hmem)⟩
      | false =>
        have hkept : Numbered.kept ((line, false) :: marks iface (line :: seen) lines) =
            line :: Numbered.kept (marks iface (line :: seen) lines) := by
              simp [Numbered.kept, Numbered.entries]
        rw [hkept, List.filter_cons_of_pos hsubject]
        refine ⟨List.nodup_cons.mpr ⟨fun hmem => hnew line hmem List.mem_cons_self, hnodup⟩, ?_⟩
        intro x hx hmem
        rcases List.mem_cons.mp hx with rfl | hx
        · have hmem : seen.contains x = true := by simpa using hmem
          rw [hmark] at hmem
          cases hmem
        · exact hnew x hx (List.mem_cons_of_mem _ hmem)
    · next hother =>
      have hkept : Numbered.kept ((line, false) :: marks iface seen lines) =
          line :: Numbered.kept (marks iface seen lines) := by
            simp [Numbered.kept, Numbered.entries]
      rw [hkept, List.filter_cons_of_neg hother]
      exact ih seen

/-- Whatever the rules match, and whichever removals fail, a packet hits the same rules in the same
order and ends at the same one; with every removal done, each rule for the interface is there once.
-/
theorem dedupe_keeps_trail (done : ℕ → Bool) (iface : String) (lines : List String)
    (hends : ∀ line, terminal line = true → ends line = true) :
    trail hit ends (dedupeIfaceRules done iface lines) = trail hit ends lines ∧
    ((dedupeIfaceRules (fun _ => true) iface lines).filter (subject iface)).Nodup := by
  constructor
  · refine (thinned_dedupe done lines).trail ?_ (by simp)
    intro line hsubject
    exact hends line (Bool.and_eq_true_iff.mp hsubject).2
  · have hall := Numbered.delete_all (m := marks iface [] lines) [] (k := 1) rfl
    rw [entries_marks, List.nil_append, List.nil_append] at hall
    simp only [dedupeIfaceRules, if_true, hall]
    exact (nodup_marks iface [] lines).1

def sampleChain : List String :=
  ["-A FORWARD -i wg0 -j ACCEPT", "-A FORWARD -j LOG", "-A FORWARD -j LOG",
    "-A FORWARD -i wg0 -j ACCEPT",
    "-A FORWARD -i wg01 -j DROP"]

/-- A packet that comes in by another interface. -/
theorem dedupe_keeps_trail_sample :
    dedupeIfaceRules (fun _ => true) "wg0" sampleChain =
      ["-A FORWARD -i wg0 -j ACCEPT", "-A FORWARD -j LOG", "-A FORWARD -j LOG",
        "-A FORWARD -i wg01 -j DROP"] ∧
    trail (fun line => line == "-A FORWARD -j LOG" || line == "-A FORWARD -i wg01 -j DROP") terminal
      (dedupeIfaceRules (fun _ => true) "wg0" sampleChain) =
    trail (fun line => line == "-A FORWARD -j LOG" || line == "-A FORWARD -i wg01 -j DROP") terminal
      sampleChain :=
  ⟨by decide +kernel, (dedupe_keeps_trail (fun _ => true) "wg0" sampleChain fun _ h => h).1⟩

end FloppyGuard.IfaceRules
