import NaturalLanguage.Text.Cluster

/-!
# Typed lines

A line of input is text as it was typed: a backspace erases the cluster before it. The size of
every cluster is kept as a number of bytes in UTF-8, and this number in a single byte. A backspace
erases as many bytes as the number says, so of a cluster of 256 bytes or more it leaves a part. A
number that ends inside a character cannot be erased.

* `typed?`: what is left of a line.
* `dropBytes_append`: erasing the bytes of some characters erases these characters.
* `typed?_of_not_mem`: a line without a backspace is left alone.
-/

namespace NaturalLanguage.Text

/-- The character that erases. -/
def backspace : Char := '\x08'

/-- The number of bytes of some characters in UTF-8. -/
def byteSize : List Char → Nat
  | [] => 0
  | c :: cs => c.utf8Size + byteSize cs

/-- Drop the characters that the first `size` bytes encode, `none` if these bytes end inside a
character. -/
def dropBytes (size : Nat) : List Char → Option (List Char)
  | [] => if size = 0 then some [] else none
  | c :: cs =>
    if size = 0 then some (c :: cs)
    else if size < c.utf8Size then none
    else dropBytes (size - c.utf8Size) cs

/-- A line while it is typed. -/
structure Typing where
  /-- The characters that are left, last first. -/
  kept : List Char
  /-- The sizes that were kept of the clusters that are left, last first. -/
  sizes : List Nat

namespace Typing

/-- The line before anything is typed. -/
def start : Typing := ⟨[], []⟩

/-- The line with one more cluster. -/
def push (t : Typing) (cluster : List Char) : Typing :=
  ⟨cluster.reverse ++ t.kept, byteSize cluster % UInt8.size :: t.sizes⟩

/-- The line after a backspace. -/
def erase? (t : Typing) : Option Typing :=
  match t.sizes with
  | [] => some t
  | size :: sizes => (dropBytes size t.kept).map fun kept => ⟨kept, sizes⟩

/-- The line after one more cluster was typed. -/
def next? (t : Typing) (cluster : List Char) : Option Typing :=
  if cluster = [backspace] then t.erase? else some (t.push cluster)

end Typing

/-- What is left of a typed line. -/
def typed? (line : List Char) : Option (List Char) :=
  ((clusters line).foldlM Typing.next? .start).map fun t => t.kept.reverse

theorem dropBytes_zero (cs : List Char) : dropBytes 0 cs = some cs := by
  cases cs <;> simp [dropBytes]

theorem dropBytes_append (cs ds : List Char) : dropBytes (byteSize cs) (cs ++ ds) = some ds := by
  induction cs with
  | nil => exact dropBytes_zero ds
  | cons c cs ih =>
    have hpos := c.utf8Size_pos
    have hne : c.utf8Size + byteSize cs ≠ 0 := by omega
    have hle : ¬ c.utf8Size + byteSize cs < c.utf8Size := by omega
    simp only [List.cons_append, byteSize, dropBytes, hne, hle, if_false]
    rwa [Nat.add_sub_cancel_left]

theorem foldlM_next?_of_not_mem {ps : List (List Char)} (h : [backspace] ∉ ps) (t : Typing) :
    ∃ sizes, ps.foldlM Typing.next? t = some ⟨ps.flatten.reverse ++ t.kept, sizes⟩ := by
  induction ps generalizing t with
  | nil => exact ⟨t.sizes, rfl⟩
  | cons p ps ih =>
    simp only [List.mem_cons, not_or] at h
    obtain ⟨sizes, hsizes⟩ := ih h.2 (t.push p)
    refine ⟨sizes, ?_⟩
    rw [List.foldlM_cons, Typing.next?, if_neg (Ne.symm h.1)]
    simpa [Typing.push] using hsizes

theorem typed?_of_not_mem {line : List Char} (h : backspace ∉ line) : typed? line = some line := by
  have hclusters : [backspace] ∉ clusters line := fun hmem =>
    h (by rw [← flatten_clusters line]; exact List.mem_flatten.2 ⟨_, hmem, by simp⟩)
  obtain ⟨sizes, hsizes⟩ := foldlM_next?_of_not_mem hclusters .start
  rw [typed?, hsizes]
  simp [Typing.start]

end NaturalLanguage.Text
