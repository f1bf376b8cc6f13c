import ScriptMachine.Text.ClusterRole

/-!
# Clusters

A cluster is what a reader takes for one character: a letter with its marks, a syllable, a flag, a
picture made of several. A text is cut between two characters unless a rule joins them. The main
statement is that the clusters of a text put together are the text.
-/

namespace ScriptMachine.Text

/-- What the characters before a boundary have begun, as far as the next one may complete it: one
half of a flag, a picture, a picture with a joiner after it, a consonant, or a consonant with a
linker after it. -/
inductive Trail
  | nothing
  | halfFlag
  | picture
  | joinedPicture
  | consonant
  | linkedConsonant
deriving DecidableEq, Repr

/-- What has been begun after one more character. -/
def Trail.after : Trail → ClusterRole → Trail
  | .halfFlag, .indicator => .nothing
  | _, .indicator => .halfFlag
  | _, .pictograph => .picture
  | _, .consonant => .consonant
  | .picture, .extender | .picture, .linker | .picture, .nonJoiner => .picture
  | .picture, .joiner => .joinedPicture
  | .consonant, .extender | .consonant, .joiner => .consonant
  | .consonant, .linker => .linkedConsonant
  | .linkedConsonant, .extender | .linkedConsonant, .joiner => .linkedConsonant
  | .linkedConsonant, .linker => .linkedConsonant
  | _, _ => .nothing

/-- Whether two neighbours are in one cluster. A carriage return keeps its newline, and nothing else
joins a control. Jamos join into syllables. Marks and joiners join what stands before them, and
prepended marks what stands after. Whether consonants, pictures and flags join hangs on what has
been begun before. -/
def joins (trail : Trail) : ClusterRole → ClusterRole → Bool
  | .carriageReturn, .newline => true
  | .carriageReturn, _ | .newline, _ | .control, _ => false
  | _, .carriageReturn | _, .newline | _, .control => false
  | .leadingJamo, .leadingJamo | .leadingJamo, .vowelJamo => true
  | .leadingJamo, .openSyllable | .leadingJamo, .closedSyllable => true
  | .vowelJamo, .vowelJamo | .vowelJamo, .trailingJamo => true
  | .openSyllable, .vowelJamo | .openSyllable, .trailingJamo => true
  | .trailingJamo, .trailingJamo | .closedSyllable, .trailingJamo => true
  | _, .extender | _, .linker | _, .nonJoiner | _, .joiner | _, .spacingMark => true
  | .prepended, _ => true
  | _, .consonant => trail = .linkedConsonant
  | _, .pictograph => trail = .joinedPicture
  | _, .indicator => trail = .halfFlag
  | _, _ => false

/-- A text that is being cut: the clusters that are complete, the last of them first; the one that
is not, in reverse; and what its characters have begun. -/
structure Cutting where
  complete : List (List Char)
  cluster : List Char
  trail : Trail
  last : ClusterRole

namespace Cutting

/-- A text before its first character. -/
def start : Cutting :=
  ⟨[], [], .nothing, .other⟩

/-- Takes the next character. -/
def take (k : Cutting) (c : Char) : Cutting :=
  let role := ClusterRole.of c
  let trail := k.trail.after role
  if k.cluster.isEmpty || joins k.trail k.last role then
    { k with cluster := c :: k.cluster, trail, last := role }
  else ⟨k.cluster.reverse :: k.complete, [c], trail, role⟩

/-- The clusters of a text that has ended. -/
def finish (k : Cutting) : List (List Char) :=
  (if k.cluster.isEmpty then k.complete else k.cluster.reverse :: k.complete).reverse

/-- A character goes to the end of the text that has been cut. -/
theorem flatten_finish_take (k : Cutting) (c : Char) :
    (k.take c).finish.flatten = k.finish.flatten ++ [c] := by
  obtain ⟨complete, cluster, trail, last⟩ := k
  cases cluster with
  | nil => simp [take, finish]
  | cons d cluster => simp only [take]; split <;> simp [finish]

/-- A text goes to the end of the text that has been cut. -/
theorem flatten_finish_foldl (s : List Char) (k : Cutting) :
    (s.foldl take k).finish.flatten = k.finish.flatten ++ s := by
  induction s generalizing k with
  | nil => simp
  | cons c r ih => simp [ih, flatten_finish_take]

end Cutting

/-- The clusters of a text. -/
def clusters (s : List Char) : List (List Char) :=
  (s.foldl Cutting.take .start).finish

/-- The clusters of a text put together are the text. -/
theorem flatten_clusters (s : List Char) : (clusters s).flatten = s := by
  rw [clusters, Cutting.flatten_finish_foldl]
  simp [Cutting.start, Cutting.finish]

end ScriptMachine.Text
