import TermText.Text.Basic

/-!
# BLAKE2b

The digest of RFC 7693 without a key over a list of octets, read as a big-endian number.
-/

namespace TermText.Blake2b

/-- The initial words. -/
def initialWords : Array UInt64 :=
  #[0x6a09e667f3bcc908, 0xbb67ae8584caa73b, 0x3c6ef372fe94f82b, 0xa54ff53a5f1d36f1,
    0x510e527fade682d1, 0x9b05688c2b3e6c1f, 0x1f83d9abfb41bd6b, 0x5be0cd19137e2179]

/-- The order in which each round takes the words of a block; after ten rounds it starts anew. -/
def schedules : List (List Nat) :=
  let ten :=
    [[0, 1, 2, 3, 4, 5, 6, 7, 8, 9, 10, 11, 12, 13, 14, 15],
      [14, 10, 4, 8, 9, 15, 13, 6, 1, 12, 0, 2, 11, 7, 5, 3],
      [11, 8, 12, 0, 5, 2, 15, 13, 10, 14, 3, 6, 7, 1, 9, 4],
      [7, 9, 3, 1, 13, 12, 11, 14, 2, 6, 5, 10, 4, 0, 15, 8],
      [9, 0, 5, 7, 2, 4, 10, 15, 14, 1, 11, 12, 6, 8, 3, 13],
      [2, 12, 6, 10, 0, 11, 8, 3, 4, 13, 7, 5, 15, 14, 1, 9],
      [12, 5, 1, 15, 14, 13, 4, 10, 0, 7, 6, 3, 9, 2, 8, 11],
      [13, 11, 7, 14, 12, 1, 3, 9, 5, 0, 15, 4, 8, 6, 2, 10],
      [6, 15, 14, 9, 11, 3, 0, 8, 12, 2, 13, 7, 1, 4, 10, 5],
      [10, 2, 8, 4, 7, 6, 1, 5, 15, 11, 9, 14, 3, 12, 13, 0]]
  ten ++ ten.take 2

/-- Rotation to the right. -/
def rotate (x : UInt64) (n : UInt64) : UInt64 :=
  (x >>> n) ||| (x <<< (64 - n))

/-- Mixes two words of a block into four of the sixteen working words. -/
def mix (v : Array UInt64) (a b c d : Nat) (x y : UInt64) : Array UInt64 :=
  let va := v.getD a 0 + v.getD b 0 + x
  let vd := rotate (v.getD d 0 ^^^ va) 32
  let vc := v.getD c 0 + vd
  let vb := rotate (v.getD b 0 ^^^ vc) 24
  let va := va + vb + y
  let vd := rotate (vd ^^^ va) 16
  let vc := vc + vd
  let vb := rotate (vb ^^^ vc) 63
  (((v.setIfInBounds a va).setIfInBounds b vb).setIfInBounds c vc).setIfInBounds d vd

/-- The columns and then the diagonals of the working words. -/
def lanes : List (Nat × Nat × Nat × Nat) :=
  [(0, 4, 8, 12), (1, 5, 9, 13), (2, 6, 10, 14), (3, 7, 11, 15),
    (0, 5, 10, 15), (1, 6, 11, 12), (2, 7, 8, 13), (3, 4, 9, 14)]

/-- The pairs of neighbours in a list. -/
def pairs : List Nat → List (Nat × Nat)
  | x :: y :: rest => (x, y) :: pairs rest
  | _ => []

/-- One round over the words of a block. -/
def round (block : Array UInt64) (v : Array UInt64) (order : List Nat) : Array UInt64 :=
  (lanes.zip (pairs order)).foldl
    (fun v ((a, b, c, d), (i, j)) => mix v a b c d (block.getD i 0) (block.getD j 0)) v

/-- The state after a block; `count` octets of the message were taken so far. -/
def compress (state : Array UInt64) (block : Array UInt64) (count : Nat) (last : Bool) :
    Array UInt64 :=
  let v := state ++ initialWords
  let v := v.setIfInBounds 12 (v.getD 12 0 ^^^ UInt64.ofNat (count % Nat.pow 2 64))
  let v := v.setIfInBounds 13 (v.getD 13 0 ^^^ UInt64.ofNat (count / Nat.pow 2 64))
  let v := if last then v.setIfInBounds 14 (~~~v.getD 14 0) else v
  let v := schedules.foldl (round block) v
  state.mapIdx fun i x => x ^^^ v.getD i 0 ^^^ v.getD (i + 8) 0

/-- The number of octets, least significant first. -/
def littleEndian (octets : List UInt8) : Nat :=
  octets.foldr (fun octet n => octet.toNat + 256 * n) 0

/-- The sixteen words of a block of at most 128 octets, which is filled up with zeros. -/
def blockWords (octets : List UInt8) : Array UInt64 :=
  Array.ofFn fun i : Fin 16 => UInt64.ofNat (littleEndian ((octets.drop (8 * i)).take 8))

/-- The state after all blocks of a message of which `count` octets were taken; `fuel` bounds the
number of blocks. -/
def absorb : (fuel count : Nat) → Array UInt64 → List UInt8 → Array UInt64
  | 0, _, state, _ => state
  | fuel + 1, count, state, octets =>
    if octets.length ≤ 128 then
      compress state (blockWords octets) (count + octets.length) true
    else
      absorb fuel (count + 128) (compress state (blockWords (octets.take 128)) (count + 128) false)
        (octets.drop 128)

/-- The digest of eight octets, read as a big-endian number. -/
def digest8 (message : List UInt8) : Nat :=
  let state := initialWords.setIfInBounds 0 (initialWords.getD 0 0 ^^^ 0x01010008)
  let word := (absorb (message.length + 1) 0 state message).getD 0 0
  (List.range 8).foldl (fun n i => 256 * n + word.toNat / Nat.pow 256 i % 256) 0

end TermText.Blake2b
