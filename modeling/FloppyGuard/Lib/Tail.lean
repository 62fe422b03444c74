import Mathlib.Data.List.Induction
import Mathlib.Data.List.TakeWhile

/-! Reading on in a file that grows by whole lines. -/
namespace Tail

variable {α : Type*} {nl : α} {lines : List (List α)} {before : List α} {limit : ℕ}

/-- The text of whole lines. -/
def content (nl : α) (lines : List (List α)) : List α := lines.flatMap fun l => l ++ [nl]

theorem content_cons (l : List α) (lines : List (List α)) :
    content nl (l :: lines) = l ++ nl :: content nl lines := by
  rw [content, List.flatMap_cons, List.append_assoc]
  rfl

theorem content_append (xs ys : List (List α)) :
    content nl (xs ++ ys) = content nl xs ++ content nl ys :=
  List.flatMap_append

variable [DecidableEq α]

/-- A buffer up to its last line end. -/
def whole (nl : α) (buf : List α) : List α := (buf.reverse.dropWhile (· ≠ nl)).reverse

/-- The whole lines from an offset on, as far as one buffer goes, and the offset behind them. -/
def readFrom (nl : α) (limit : ℕ) (file : List α) (offset : ℕ) : List α × ℕ :=
  if file.length ≤ offset then ([], file.length)
  else
    let text := whole nl ((file.drop offset).take limit)
    (text, offset + text.length)

theorem whole_content (lines : List (List α)) : whole nl (content nl lines) = content nl lines := by
  induction lines using List.reverseRecOn with
  | nil => rfl
  | append_singleton lines l _ =>
    have hlast : content nl (lines ++ [l]) = (content nl lines ++ l) ++ [nl] := by
      rw [content_append, content_cons, content, List.append_assoc]
      rfl
    rw [whole, hlast, List.reverse_append, List.reverse_singleton, List.singleton_append,
      List.dropWhile_cons_of_neg (by simp), List.reverse_cons, List.reverse_reverse]

/-- Lines behind the offset that one buffer holds are read, and no others. -/
theorem readFrom_content (h : (content nl lines).length ≤ limit) :
    readFrom nl limit (before ++ content nl lines) before.length =
      (content nl lines, (before ++ content nl lines).length) := by
  unfold readFrom
  split
  · next hend =>
    have hnil : content nl lines = [] := by
      rw [List.length_append] at hend
      exact List.length_eq_zero_iff.mp (by omega)
    rw [hnil]
  · rw [List.drop_left, List.take_of_length_le h, whole_content, List.length_append]

theorem splitOn_content (h : ∀ l ∈ lines, nl ∉ l) :
    (content nl lines).splitOn nl = lines ++ [[]] := by
  induction lines with
  | nil => exact List.splitOn_nil nl
  | cons l lines ih =>
    rw [content_cons, List.splitOn_append_cons_self_of_not_mem (h l List.mem_cons_self),
      ih fun m hm => h m (List.mem_cons_of_mem _ hm)]
    rfl

end Tail
