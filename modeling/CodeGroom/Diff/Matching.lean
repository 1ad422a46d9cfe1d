import CodeGroom.Text.Symbol

/-!
# Matching two lists of lines

Two versions of a text are compared line by line: the longest block of lines that both have in a row is matched first, then the
same is done with what lies before it and with what lies behind it. Of several longest blocks the first one counts. In a long new
version, lines that occur very often do not start a block, though a block may grow over them.
-/

namespace CodeGroom.Diff

/-- A block of lines that both versions have: where it starts in the old one and in the new one, and its length. -/
structure Block where
  old : Nat
  new : Nat
  size : Nat
deriving DecidableEq, Repr

/-- Whether a line occurs so often in a long text that it says little about the place. -/
def popular (new : List Text) (line : Text) : Bool := 200 ≤ new.length && new.length / 100 + 1 < new.count line

/-- For every new line, the length of the block that ends with it and the old line `line`, from the lengths for the old line
before. -/
def matchRow (skip : Text → Bool) (line : Text) (new : List Text) (row : List Nat) : List Nat :=
  List.zipWith (fun l k => if l = line && !skip l then k + 1 else 0) new (0 :: row)

/-- The better one of a block and those that end in a row: a later block has to be longer. `i` is the place of the old line, `j`
that of the first new one. -/
def bestInRow (i : Nat) : Nat → List Nat → Block → Block
  | _, [], best => best
  | j, k :: ks, best => bestInRow i (j + 1) ks (if best.size < k then ⟨i + 1 - k, j + 1 - k, k⟩ else best)

/-- The longest block without popular lines, row by row. -/
def bestBlock (skip : Text → Bool) (new : List Text) : Nat → List Text → List Nat → Block → Block
  | _, [], _, best => best
  | i, line :: old, row, best =>
    let row := matchRow skip line new row
    bestBlock skip new (i + 1) old row (bestInRow i 0 row best)

/-- The number of lines at the start of two lists that are the same. -/
def commonStart : List Text → List Text → Nat
  | x :: xs, y :: ys => if x = y then commonStart xs ys + 1 else 0
  | _, _ => 0

/-- The longest block of two lists, popular lines around it included. -/
def longestBlock (skip : Text → Bool) (old new : List Text) : Block :=
  let b := bestBlock skip new 0 old (List.replicate new.length 0) ⟨0, 0, 0⟩
  let back := commonStart (old.take b.old).reverse (new.take b.new).reverse
  let on := commonStart (old.drop (b.old + b.size)) (new.drop (b.new + b.size))
  ⟨b.old - back, b.new - back, b.size + back + on⟩

/-- The blocks of two lists in their order, found in at most so many levels. The lists are parts of two texts and start at the
places `i` and `j` there. -/
def blocksFor (skip : Text → Bool) : Nat → Nat → Nat → List Text → List Text → List Block
  | 0, _, _, _, _ => []
  | n + 1, i, j, old, new =>
    if old = [] ∨ new = [] then []
    else
      let b := longestBlock skip old new
      if b.size = 0 then []
      else
        blocksFor skip n i j (old.take b.old) (new.take b.new) ++
          ⟨i + b.old, j + b.new, b.size⟩ ::
            blocksFor skip n (i + b.old + b.size) (j + b.new + b.size) (old.drop (b.old + b.size))
              (new.drop (b.new + b.size))

/-- Joins blocks that follow directly on each other in both versions. -/
def joinBlocks : Block → List Block → List Block
  | b, [] => [b]
  | b, c :: cs =>
    if b.old + b.size = c.old ∧ b.new + b.size = c.new then joinBlocks { b with size := b.size + c.size } cs
    else b :: joinBlocks c cs

/-- The blocks that two versions of a text have in common, in their order. -/
def blocks (old new : List Text) : List Block :=
  (joinBlocks ⟨0, 0, 0⟩ (blocksFor (popular new) (old.length + 1) 0 0 old new)).filter (0 < ·.size)

end CodeGroom.Diff
