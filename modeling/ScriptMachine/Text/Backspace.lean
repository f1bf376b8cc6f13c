import ScriptMachine.Text.Cluster
import ScriptMachine.Text.Lines

/-!
# Backspaces

A backspace in a line erases the cluster before it. The main statement is that a line without
backspaces stays as it is.
-/

namespace ScriptMachine.Text

/-- The character that erases. -/
def backspace : Char :=
  '\x08'

/-- What is kept of a line: its characters, the last of them first, and the sizes by which its
clusters are erased, likewise. -/
structure Kept where
  characters : List Char
  sizes : List Nat

namespace Kept

/-- The size by which a cluster is erased. It is a number of bytes that is held in one byte, so
clusters of 256 bytes and more are not erased whole. -/
def recordedSize (cluster : List Char) : Nat :=
  cluster.foldr (fun c size => c.utf8Size + size) 0 % 256

/-- Drops characters until they make up a number of bytes. -/
def dropBytes (n : Nat) : List Char → List Char
  | [] => []
  | c :: r => if n = 0 then c :: r else dropBytes (n - c.utf8Size) r

/-- Erases the last cluster, if there is one. -/
def erase (k : Kept) : Kept :=
  match k.sizes with
  | [] => k
  | n :: sizes => ⟨dropBytes n k.characters, sizes⟩

/-- Keeps a cluster. -/
def keep (k : Kept) (cluster : List Char) : Kept :=
  ⟨cluster.reverse ++ k.characters, recordedSize cluster :: k.sizes⟩

/-- Takes the next cluster of a line. -/
def take (k : Kept) (cluster : List Char) : Kept :=
  if cluster = [backspace] then k.erase else k.keep cluster

/-- Clusters without a backspace are kept in order. -/
theorem characters_foldl_take {cs : List (List Char)} (h : ∀ c ∈ cs, c ≠ [backspace]) (k : Kept) :
    (cs.foldl take k).characters = cs.flatten.reverse ++ k.characters := by
  induction cs generalizing k with
  | nil => simp
  | cons c r ih => simp [take, h c, keep, ih fun d mem => h d (.tail c mem)]

end Kept

/-- A line after its backspaces. -/
def applyBackspaces (line : Line) : Line :=
  ((clusters line).foldl Kept.take ⟨[], []⟩).characters.reverse

/-- A line without backspaces stays as it is. -/
theorem applyBackspaces_eq_self {line : Line} (h : backspace ∉ line) :
    applyBackspaces line = line := by
  have kept : ∀ c ∈ clusters line, c ≠ [backspace] := fun c mem equal =>
    h (flatten_clusters line ▸ List.mem_flatten.2 ⟨c, mem, by simp [equal]⟩)
  simp [applyBackspaces, Kept.characters_foldl_take kept, flatten_clusters]

end ScriptMachine.Text
