import NaturalLanguage.Text.BreakClass

/-!
# Clusters

A cluster is what a reader takes for one character. A text is cut into clusters from left to right:
a character goes on with the cluster before it if the break classes of the cluster and of the
character say so, and begins a new cluster otherwise.

* `flatten_clusters`: cutting loses nothing.
* `ne_nil_of_mem_clusters`: no cluster is empty.
-/

namespace NaturalLanguage.Text

namespace BreakClass

/-- Whether a cluster ends before and after every character of the class. -/
def isControl : BreakClass → Bool
  | carriageReturn | lineFeed | control => true
  | _ => false

/-- Whether a character of the class extends what is before it. -/
def isExtending : BreakClass → Bool
  | extend | linker | nonJoiner => true
  | _ => false

/-- Whether a character of the class belongs to any cluster before it. -/
def isAttached (b : BreakClass) : Bool := b.isExtending || b == joiner || b == spacing

/-- Whether a character of the class can stand between two consonants that are linked. -/
def isBetweenConsonants : BreakClass → Bool
  | extend | linker | joiner => true
  | _ => false

/-- Whether two neighbours belong to one Hangul syllable. -/
def inSyllable : BreakClass → BreakClass → Bool
  | leading, next => next == leading || next == vowel || next == openSyllable ||
      next == closedSyllable
  | openSyllable, next | vowel, next => next == vowel || next == trailing
  | closedSyllable, next | trailing, next => next == trailing
  | _, _ => false

/-- Whether a linker stands between the last consonant of a cluster and its end. A cluster is given
by the classes of its characters, last first. -/
def linksConsonant (cluster : List BreakClass) : Bool :=
  (cluster.takeWhile isBetweenConsonants).contains linker &&
    (cluster.dropWhile isBetweenConsonants).head? == some consonant

/-- Whether a cluster ends with a pictograph and a joiner after it. -/
def joinsPictograph : List BreakClass → Bool
  | joiner :: earlier => (earlier.dropWhile isExtending).head? == some pictograph
  | _ => false

/-- Whether a cluster ends with one half of a flag. -/
def endsHalfFlag (cluster : List BreakClass) : Bool :=
  (cluster.takeWhile (· == regional)).length % 2 == 1

/-- Whether a character of the class `next` goes on with a cluster. -/
def continues (cluster : List BreakClass) (next : BreakClass) : Bool :=
  match cluster with
  | [] => false
  | last :: _ =>
    if last.isControl then last == carriageReturn && next == lineFeed
    else if next.isControl then false
    else
      next.isAttached || last == prepend || inSyllable last next ||
        (next == consonant && linksConsonant cluster) ||
        (next == pictograph && joinsPictograph cluster) ||
        (next == regional && endsHalfFlag cluster)

theorem continues_of_isControl {next : BreakClass} (h : next.isControl = true)
    (hnext : next ≠ lineFeed) (cluster : List BreakClass) : continues cluster next = false := by
  unfold continues
  split
  · rfl
  · split <;> simp_all

end BreakClass

/-- The clusters of a text that goes on after the characters `cluster`, last first, which are of
the classes `classes`. -/
def clustersFrom (cluster : List Char) (classes : List BreakClass) : List Char → List (List Char)
  | [] => [cluster.reverse]
  | c :: cs =>
    let next := BreakClass.of c
    if BreakClass.continues classes next then clustersFrom (c :: cluster) (next :: classes) cs
    else cluster.reverse :: clustersFrom [c] [next] cs

/-- The clusters of a text. -/
def clusters : List Char → List (List Char)
  | [] => []
  | c :: cs => clustersFrom [c] [.of c] cs

theorem flatten_clustersFrom (cluster : List Char) (classes : List BreakClass) (cs : List Char) :
    (clustersFrom cluster classes cs).flatten = cluster.reverse ++ cs := by
  induction cs generalizing cluster classes with
  | nil => simp [clustersFrom]
  | cons c cs ih =>
    unfold clustersFrom
    simp only
    split <;> simp [ih]

@[simp] theorem flatten_clusters (cs : List Char) : (clusters cs).flatten = cs := by
  cases cs <;> simp [clusters, flatten_clustersFrom]

theorem ne_nil_of_mem_clustersFrom {cluster cs p : List Char} {classes : List BreakClass}
    (hcluster : cluster ≠ []) (h : p ∈ clustersFrom cluster classes cs) : p ≠ [] := by
  induction cs generalizing cluster classes with
  | nil => simp_all [clustersFrom]
  | cons c cs ih =>
    unfold clustersFrom at h
    simp only at h
    split at h
    · exact ih (by simp) h
    · rcases List.mem_cons.1 h with rfl | h
      · simpa using hcluster
      · exact ih (by simp) h

theorem ne_nil_of_mem_clusters {cs p : List Char} (h : p ∈ clusters cs) : p ≠ [] := by
  cases cs with
  | nil => simp [clusters] at h
  | cons c cs => exact ne_nil_of_mem_clustersFrom (by simp) h

end NaturalLanguage.Text
