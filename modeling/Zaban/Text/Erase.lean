import Zaban.Text.Cluster

/-!
# Taking back what was typed

A line may hold **backspaces**. Each takes back the cluster before it that was
not taken back yet; where there is none it does nothing.

How much a cluster takes up is kept in one byte. Of a cluster that is 256 bytes
long or longer only the remainder is taken back, and what stays of it is no
longer told apart from the text before it, so the next backspace takes its
bytes from there.

`Text.takeBack` is the line that is left, and `Text.takeBack_of_not_mem` says
that a line without backspaces is left as it is.
-/

namespace Zaban.Text

/-- The character that takes back the cluster before it. -/
def backspace : Char := '\x08'

/-- The length of a text in bytes. -/
def byteLength (cs : List Char) : Nat :=
  cs.foldl (fun n c => n + c.utf8Size) 0

/-- The characters `cs` without those that take up the first `n` bytes. A character of which only a
part would go stays. -/
def dropBytes : (n : Nat) → (cs : List Char) → List Char
  | _, [] => []
  | n, c :: cs => if c.utf8Size ≤ n then dropBytes (n - c.utf8Size) cs else c :: cs

/-- A line in the course of typing. -/
structure Typed where
  /-- The characters on the line, with the last one first. -/
  back : List Char
  /-- How many bytes each backspace to come would take back, the next one first. -/
  sizes : List Nat

namespace Typed

/-- Before anything is typed. -/
def nothing : Typed := ⟨[], []⟩

/-- The characters on the line. -/
def chars (t : Typed) : List Char :=
  t.back.reverse

/-- Types a cluster, which may be a backspace. -/
def type (t : Typed) (cluster : List Char) : Typed :=
  if cluster = [backspace] then ⟨dropBytes (t.sizes.head?.getD 0) t.back, t.sizes.tail⟩
  else ⟨cluster.reverse ++ t.back, byteLength cluster % 256 :: t.sizes⟩

/-- A cluster that takes nothing back stands behind what was typed before it. -/
theorem chars_type (t : Typed) {cluster : List Char} (h : cluster ≠ [backspace]) :
    (t.type cluster).chars = t.chars ++ cluster := by
  rw [type, if_neg h]
  simp [chars]

/-- Clusters that take nothing back stand behind what was typed before them. -/
theorem chars_foldl_type (t : Typed) {us : List (List Char)} (h : [backspace] ∉ us) :
    (us.foldl type t).chars = t.chars ++ us.flatten := by
  induction us generalizing t with
  | nil => simp
  | cons u us ih =>
    rw [List.mem_cons, not_or] at h
    obtain ⟨hu, hus⟩ := h
    rw [List.foldl_cons, ih _ hus, chars_type t (Ne.symm hu), List.flatten_cons, List.append_assoc]

end Typed

/-- What is left of a line when each backspace has taken back the cluster before it. -/
def takeBack (cs : List Char) : List Char :=
  ((clusters cs).foldl Typed.type Typed.nothing).chars

/-- Without backspaces nothing is taken back. -/
theorem takeBack_of_not_mem {cs : List Char} (h : backspace ∉ cs) : takeBack cs = cs := by
  have hne : [backspace] ∉ clusters cs := fun hmem =>
    h (flatten_clusters cs ▸ List.mem_flatten.2 ⟨_, hmem, List.mem_singleton.2 rfl⟩)
  rw [takeBack, Typed.chars_foldl_type _ hne, flatten_clusters]
  rfl

end Zaban.Text
