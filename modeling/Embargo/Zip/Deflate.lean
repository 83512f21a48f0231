/-!
Compressed data in blocks. A block holds its bytes as they are, or as codes for
single bytes and for copies of bytes already put out. A code is given by the
lengths of its words: shorter words come first, words of one length in the order
of their symbols.

Data is written in plain blocks only.
-/
namespace Embargo.Zip.Deflate

inductive Stop where
  | truncated
  | corrupt
  /-- A copy of bytes from before the start of the data. -/
  | tooFarBack
  deriving DecidableEq, Repr

/-- How far data is expanded. -/
structure Progress where
  data : ByteArray
  /-- How many bits are used up. -/
  position : Nat
  output : ByteArray
  /-- No more is put out once there is more than this. -/
  wanted : Nat

/-- A step of expanding data; what was put out before a stop stays. -/
abbrev Step (α : Type) := ExceptT Stop (StateM Progress) α

def bit : Step Nat := fun p =>
  match p.data[p.position / 8]? with
  | none => (.error .truncated, p)
  | some b =>
    (.ok ((b.toNat >>> (p.position % 8)) % 2), { p with position := p.position + 1 })

/-- A number of some bits, the lowest first. -/
def number : Nat → Step Nat
  | 0 => return 0
  | width + 1 => do
    let low ← bit
    let high ← number width
    return low + 2 * high

def put (b : UInt8) : Step Unit := modify fun p => { p with output := p.output.push b }

/-- Whether more is put out than is wanted. -/
def isEnough : Step Bool := do
  let p ← get
  return p.wanted < p.output.size

/-- How many words there are of each length from one on, and the symbols in the
order of their words. There is a count of words of one bit even if there are no words. -/
structure Code where
  counts : List Nat
  symbols : Array Nat

/-- The code of symbols whose word lengths are given; a length of zero means no word. -/
def Code.ofLengths (lengths : List Nat) : Code :=
  let sizes := (List.range (max 1 (lengths.foldl max 0))).map (· + 1)
  let numbered := lengths.zipIdx
  { counts := sizes.map fun size => lengths.count size
    symbols := (sizes.flatMap fun size =>
      (numbered.filter fun (length, _) => length = size).map Prod.snd).toArray }

/-- How many words of the last length are still free, with so many free of the
length before; nothing where words do not fit. -/
def freeWords : List Nat → Nat → Option Nat
  | [], free => some free
  | count :: counts, free =>
    if count ≤ 2 * free then freeWords counts (2 * free - count) else none

/-- Whether the words fit and none is free. -/
def Code.isComplete (code : Code) : Bool := freeWords code.counts 1 = some 0

/-- Whether the words fit; words may be free only where all have one bit. -/
def Code.isUsable (code : Code) : Bool :=
  code.isComplete || (code.counts.length = 1 && (freeWords code.counts 1).isSome)

/-- The next symbol. `word` and `first` are the word read so far and the first word
of its length, `index` is the place of that one's symbol. -/
def symbolFrom (symbols : Array Nat) : List Nat → Nat → Nat → Nat → Step Nat
  | [], _, _, _ => throw .corrupt
  | count :: counts, word, first, index => do
    let word := word + (← bit)
    if word < first + count then
      match symbols[index + (word - first)]? with
      | some symbol => return symbol
      | none => throw .corrupt
    else symbolFrom symbols counts (2 * word) (2 * (first + count)) (index + count)

def Code.symbol (code : Code) : Step Nat := symbolFrom code.symbols code.counts 0 0 0

/-- The shortest copy of each length symbol and its extra bits. -/
def lengths : Array (Nat × Nat) :=
  #[(3, 0), (4, 0), (5, 0), (6, 0), (7, 0), (8, 0), (9, 0), (10, 0), (11, 1), (13, 1), (15, 1),
    (17, 1), (19, 2), (23, 2), (27, 2), (31, 2), (35, 3), (43, 3), (51, 3), (59, 3), (67, 4),
    (83, 4), (99, 4), (115, 4), (131, 5), (163, 5), (195, 5), (227, 5), (258, 0)]

/-- The smallest distance of each distance symbol and its extra bits. -/
def distances : Array (Nat × Nat) :=
  #[(1, 0), (2, 0), (3, 0), (4, 0), (5, 1), (7, 1), (9, 2), (13, 2), (17, 3), (25, 3), (33, 4),
    (49, 4), (65, 5), (97, 5), (129, 6), (193, 6), (257, 7), (385, 7), (513, 8), (769, 8),
    (1025, 9), (1537, 9), (2049, 10), (3073, 10), (4097, 11), (6145, 11), (8193, 12),
    (12289, 12), (16385, 13), (24577, 13)]

/-- A number that a table row starts and extra bits complete. -/
def completed (row : Option (Nat × Nat)) : Step Nat := do
  match row with
  | none => throw .corrupt
  | some (base, extra) => return base + (← number extra)

/-- Bytes with some of them again, from a distance back; they may be among those just
put behind. -/
def again (distance : Nat) : Nat → ByteArray → ByteArray
  | 0, output => output
  | length + 1, output =>
    again distance length (output.push (output[output.size - distance]?.getD 0))

/-- Puts out bytes again from a distance back. -/
def copy (distance length : Nat) : Step Unit := do
  if (← get).output.size < distance then throw .tooFarBack
  modify fun p => { p with output := again distance length p.output }

/-- The symbols of a block up to its end mark, as far as they are wanted. Each takes a
bit at least, so the bits ahead are fuel enough. -/
def symbols (literal distance : Code) : Nat → Step Unit
  | 0 => throw .truncated
  | fuel + 1 => do
    if ← isEnough then return
    let symbol ← literal.symbol
    if symbol < 256 then
      put (UInt8.ofNat symbol)
      symbols literal distance fuel
    else if symbol = 256 then return
    else
      let length ← completed lengths[symbol - 257]?
      let back ← completed distances[← distance.symbol]?
      copy back length
      symbols literal distance fuel

/-- Bits enough for any loop over what is ahead. -/
def bitsAhead : Step Nat := do
  let p ← get
  return 8 * p.data.size - p.position + 1

def plainBlock : Step Unit := do
  modify fun p => { p with position := (p.position + 7) / 8 * 8 }
  let length ← number 16
  let complement ← number 16
  if length + complement ≠ 0xFFFF then throw .corrupt
  let p ← get
  let start := p.position / 8
  let taken := p.data.extract start (start + length)
  set { p with position := p.position + 8 * length, output := p.output ++ taken }
  if taken.size < length then throw .truncated

def fixedLiteral : Code :=
  Code.ofLengths (List.replicate 144 8 ++ List.replicate 112 9 ++ List.replicate 24 7 ++
    List.replicate 8 8)

def fixedDistance : Code := Code.ofLengths (List.replicate 30 5)

/-- The order in which the lengths of the code for lengths are given. -/
def lengthOrder : List Nat := [16, 17, 18, 0, 8, 7, 9, 6, 10, 5, 11, 4, 12, 3, 13, 2, 14, 1, 15]

/-- Word lengths up to a total, put behind those of `done`, which is reversed. Every
symbol gives one length at least. -/
def wordLengths (code : Code) (total : Nat) : Nat → List Nat → Step (List Nat)
  | 0, _ => throw .corrupt
  | fuel + 1, done => do
    if done.length = total then return done.reverse
    else if total < done.length then throw .corrupt
    else
      let symbol ← code.symbol
      if symbol < 16 then wordLengths code total fuel (symbol :: done)
      else if symbol = 16 then
        let times := 3 + (← number 2)
        match done with
        | [] => throw .corrupt
        | last :: _ => wordLengths code total fuel (List.replicate times last ++ done)
      else
        let times ← if symbol = 17 then (3 + ·) <$> number 3 else (11 + ·) <$> number 7
        wordLengths code total fuel (List.replicate times 0 ++ done)

/-- The code for lengths. One without words takes every bit for a length of zero. -/
def lengthCode (sizes : List Nat) : Step Code :=
  let placed := lengthOrder.zip sizes
  let code := Code.ofLengths ((List.range 19).map fun i => (placed.lookup i).getD 0)
  if code.symbols.isEmpty then return ⟨[2], #[0, 0]⟩
  else if code.isComplete then return code
  else throw .corrupt

/-- A block that describes its codes. The end mark needs a word. -/
def describedBlock : Step Unit := do
  let literals := 257 + (← number 5)
  let distances := 1 + (← number 5)
  let given := 4 + (← number 4)
  if 286 < literals ∨ 30 < distances then throw .corrupt
  let code ← lengthCode (← (List.range given).mapM fun _ => number 3)
  let total := literals + distances
  let all ← wordLengths code total (total + 1) []
  if all[256]? = some 0 then throw .corrupt
  let literal := Code.ofLengths (all.take literals)
  let distance := Code.ofLengths (all.drop literals)
  if !literal.isUsable || !distance.isUsable then throw .corrupt
  symbols literal distance (← bitsAhead)

/-- Blocks up to the last, as far as they are wanted. Each takes a bit at least. -/
def blocks : Nat → Step Unit
  | 0 => throw .truncated
  | fuel + 1 => do
    if ← isEnough then return
    let isLast := (← number 1) = 1
    match ← number 2 with
    | 0 => plainBlock
    | 1 => symbols fixedLiteral fixedDistance (← bitsAhead)
    | 2 => describedBlock
    | _ => throw .corrupt
    if isLast then return else blocks fuel

/-- What data expands to, and why it stops early if it does. Where there is more than
is wanted, some of it is left out, but no byte that is wanted nor the next. -/
def expand (data : ByteArray) (wanted : Nat) : ByteArray × Option Stop :=
  match (blocks (8 * data.size + 1)).run ⟨data, 0, .empty, wanted⟩ with
  | (.ok _, p) => (p.output, none)
  | (.error stop, p) => (p.output, some stop)

/-- A plain block of at most 65535 bytes. -/
def plain (isLast : Bool) (data : List UInt8) : List UInt8 :=
  let length := UInt16.ofNat data.length
  [if isLast then 1 else 0, length.toUInt8, (length >>> 8).toUInt8,
    (~~~length).toUInt8, (~~~length >>> 8).toUInt8] ++ data

/-- Data in plain blocks. -/
def wrap (data : List UInt8) : List UInt8 :=
  let rest := data.drop 65535
  if rest = [] then plain true data else plain false (data.take 65535) ++ wrap rest
termination_by data.length
decreasing_by
  rename_i h
  have : 65535 < data.length := by simpa [rest] using h
  rw [List.length_drop]
  omega

end Embargo.Zip.Deflate
