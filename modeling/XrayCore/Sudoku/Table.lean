import XrayCore.Sudoku.Layout

/-!
# Tables

A byte stands for one of the solved grids of four by four, and is written as four clues that no
other grid has. `buildTable` writes the clues in a layout and puts them into a map from which the
byte is read; that no two bytes have the same clues is checked on the way. Which grid a byte stands
for depends on the password, by a shuffle that is a parameter here.
-/

namespace XrayCore.Sudoku

open Lib

abbrev Grid := Bytes

structure Quad where
  a : UInt8
  b : UInt8
  c : UInt8
  d : UInt8
  deriving DecidableEq

namespace Quad

def toList (v : Quad) : Bytes := [v.a, v.b, v.c, v.d]

def map (f : UInt8 → UInt8) (v : Quad) : Quad := ⟨f v.a, f v.b, f v.c, f v.d⟩

@[simp] theorem toList_map (f : UInt8 → UInt8) (v : Quad) : (v.map f).toList = v.toList.map f := rfl

theorem toList_inj {v w : Quad} (h : v.toList = w.toList) : v = w := by
  obtain ⟨a, b, c, d⟩ := v
  obtain ⟨a', b', c', d'⟩ := w
  simpa [toList] using h

end Quad

def fits (g : Grid) (idx : Nat) (num : UInt8) : Bool :=
  let row := idx / 4
  let col := idx % 4
  let boxRow := row / 2 * 2
  let boxCol := col / 2 * 2
  ((List.range 4).all fun i => byteAt g (row * 4 + i) ≠ num && byteAt g (i * 4 + col) ≠ num) &&
    (List.range 2).all fun r => (List.range 2).all fun c =>
      byteAt g ((boxRow + r) * 4 + (boxCol + c)) ≠ num

def gridDfs : Nat → Grid → List Grid
  | 0, g => [g]
  | left + 1, g =>
    let idx := 15 - left
    [1, 2, 3, 4].flatMap fun num => if fits g idx num then gridDfs left (g.set idx num) else []

def generateAllGrids : List Grid := gridDfs 16 (List.replicate 16 0)

def hintPositions : List Quad :=
  (List.range 13).flatMap fun a =>
    (List.range' (a + 1) (14 - (a + 1))).flatMap fun b =>
      (List.range' (b + 1) (15 - (b + 1))).flatMap fun c =>
        (List.range' (c + 1) (16 - (c + 1))).map fun d =>
          ⟨UInt8.ofNat a, UInt8.ofNat b, UInt8.ofNat c, UInt8.ofNat d⟩

def clueGroup (g : Grid) (pos : UInt8) : UInt8 :=
  ((byteAt g pos.toNat - 1) <<< 4) ||| (pos &&& 0x0f)

def packKey (sorted : Quad) : UInt32 := ofBe32 sorted.a sorted.b sorted.c sorted.d

def sort4 (v : Quad) : Quad :=
  let v := if v.a > v.b then ⟨v.b, v.a, v.c, v.d⟩ else v
  let v := if v.c > v.d then ⟨v.a, v.b, v.d, v.c⟩ else v
  let v := if v.a > v.c then ⟨v.c, v.b, v.a, v.d⟩ else v
  let v := if v.b > v.d then ⟨v.a, v.d, v.c, v.b⟩ else v
  if v.b > v.c then ⟨v.a, v.c, v.b, v.d⟩ else v

def clues (ps : Quad) (g : Grid) : Quad := sort4 (ps.map (clueGroup g))

def counts (grids : List Grid) (ps : Quad) (key : UInt32) : Nat :=
  grids.countP fun g => packKey (clues ps g) = key

def addPatterns (grids : List Grid) (patterns : List (List Quad)) (ps : Quad) : List (List Quad) :=
  (patterns.zip grids).map fun (list, g) =>
    if counts grids ps (packKey (clues ps g)) = 1 then list ++ [clues ps g] else list

def checkPatterns (patterns : List (List Quad)) : Except SudokuError (List (List Quad)) :=
  match patterns.findIdx? (· = []) with
  | some gi => .error (.gridWithoutClues gi)
  | none => .ok patterns

def buildBasePatterns : Except SudokuError (List (List Quad)) :=
  checkPatterns (hintPositions.foldl (addPatterns generateAllGrids)
    (List.replicate generateAllGrids.length []))

structure Table where
  encode : UInt8 → List Quad
  decode : UInt32 → Option UInt8
  layout : Layout

structure Shuffle where
  order : List Char → Nat → List Nat
  perm : ∀ password n, (order password n).Perm (List.range n)

def hintsOf (layout : Layout) (groups : Quad) : Quad := groups.map layout.encodeGroup

def keyOf (hints : Quad) : UInt32 := packKey (sort4 hints)

def addPattern (layout : Layout) (b : UInt8) (t : (UInt32 → Option UInt8) × List Quad)
    (groups : Quad) : Except SudokuError ((UInt32 → Option UInt8) × List Quad) :=
  let hints := hintsOf layout groups
  let key := keyOf hints
  match t.1 key with
  | some old =>
    if old ≠ b then .error (.keyCollision old b)
    else .ok (Function.update t.1 key (some b), t.2 ++ [hints])
  | none => .ok (Function.update t.1 key (some b), t.2 ++ [hints])

def addByte (patterns : List (List Quad)) (order : List Nat) (t : Table) (b : Nat) :
    Except SudokuError Table :=
  let grid := order.getD b 0
  let patList := patterns.getD grid []
  if patList = [] then .error (.noValidClueSet grid)
  else do
    let (decode, enc) ← patList.foldlM (addPattern t.layout (UInt8.ofNat b)) (t.decode, [])
    .ok { t with encode := Function.update t.encode (UInt8.ofNat b) enc, decode := decode }

def Table.empty (layout : Layout) : Table := ⟨fun _ => [], fun _ => none, layout⟩

def buildTable (sh : Shuffle) (password : List Char) (layout : Layout) :
    Except SudokuError Table := do
  let patterns ← buildBasePatterns
  if patterns.length < 256 then .error (.notEnoughGrids patterns.length)
  else
    let order := sh.order password patterns.length
    (List.range 256).foldlM (addByte patterns order) (Table.empty layout)

inductive Mode
  | preferEntropy
  | preferAscii
  deriving DecidableEq

def normalizeAscii (u : Unicode) (mode : List Char) : Except SudokuError Mode :=
  let mode := u.toLowercase (u.trim mode)
  if mode = [] ∨ mode = "entropy".toList ∨ mode = "prefer_entropy".toList then .ok .preferEntropy
  else if mode = "ascii".toList ∨ mode = "prefer_ascii".toList then .ok .preferAscii
  else .error (.asciiMode mode)

def addCustomPattern (u : Unicode) (patterns : List (List Char)) (raw : List Char) :
    Except SudokuError (List (List Char)) := do
  let trimmed := u.trim raw
  let normalized ← if trimmed = [] then .ok [] else normalizeCustomTable u trimmed
  .ok (if normalized ∈ patterns then patterns else patterns ++ [normalized])

def normalizedCustomPatterns (u : Unicode) (rawPatterns : List (List Char)) (mode : Mode) :
    Except SudokuError (List (List Char)) :=
  if mode = .preferAscii then .ok [[]]
  else do
    let patterns ← rawPatterns.foldlM (addCustomPattern u) []
    .ok (if patterns = [] then [[]] else patterns)

def resolveLayout (u : Unicode) (mode : Mode) (customTable : List Char) :
    Except SudokuError Layout :=
  if mode = .preferAscii then .ok .ascii
  else if customTable ≠ [] then do
    let c ← CustomLayout.new u customTable
    .ok (.custom c)
  else .ok .entropy

structure TableCacheKey where
  password : List Char
  mode : Mode
  patterns : List (List Char)
  deriving DecidableEq

abbrev Cache := TableCacheKey → Option (List Table)

def buildTables (u : Unicode) (sh : Shuffle) (key : TableCacheKey) :
    Except SudokuError (List Table) :=
  key.patterns.mapM fun pattern => do
    let layout ← resolveLayout u key.mode pattern
    buildTable sh key.password layout

def getTables (u : Unicode) (sh : Shuffle) (cache : Cache) (password ascii : List Char)
    (customTables : List (List Char)) : Except SudokuError (List Table × Cache) := do
  let mode ← normalizeAscii u ascii
  let patterns ← normalizedCustomPatterns u customTables mode
  let key : TableCacheKey := ⟨password, mode, patterns⟩
  match cache key with
  | some cached => .ok (cached, cache)
  | none => do
    let tables ← buildTables u sh key
    .ok (tables, Function.update cache key (some tables))

end XrayCore.Sudoku
