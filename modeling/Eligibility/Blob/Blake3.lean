import Eligibility.Blob.Varint

/-!
# BLAKE3

The hash function by which stored rules are protected. The input is cut into chunks of 1024 bytes
and these into blocks of 64; each block is compressed together with the chaining value so far. The
chaining values of the chunks are the leaves of a binary tree, whose left subtrees are full and as
large as they can be, and the root yields the digest.
-/

namespace Eligibility.Blake3

-- a power is the same term here and where Mathlib has a reading of its own
attribute [local instance (20000)] instPowNat

/-- The eight words that carry a chunk or a subtree on. -/
abbrev ChainingValue := Vector UInt32 8

/-- The sixteen words of a block, or of the state. -/
abbrev Block := Vector UInt32 16

/-- The initial chaining value. -/
def initial : ChainingValue :=
  #v[0x6A09E667, 0xBB67AE85, 0x3C6EF372, 0xA54FF53A, 0x510E527F, 0x9B05688C, 0x1F83D9AB, 0x5BE0CD19]

def chunkStart : UInt32 := 1

def chunkEnd : UInt32 := 2

def parent : UInt32 := 4

def root : UInt32 := 8

def rotateRight (x n : UInt32) : UInt32 := (x >>> n) ||| (x <<< (32 - n))

/-- Mixes two words of a block into four words of the state. -/
def mix (s : Block) (a b c d : Fin 16) (x y : UInt32) : Block :=
  let va := s[a] + s[b] + x
  let vd := rotateRight (s[d] ^^^ va) 16
  let vc := s[c] + vd
  let vb := rotateRight (s[b] ^^^ vc) 12
  let va := va + vb + y
  let vd := rotateRight (vd ^^^ va) 8
  let vc := vc + vd
  let vb := rotateRight (vb ^^^ vc) 7
  (((s.set a va).set b vb).set c vc).set d vd

/-- Mixes a block into the columns of the state and then into its diagonals. -/
def round (s m : Block) : Block :=
  let s := mix s 0 4 8 12 m[0] m[1]
  let s := mix s 1 5 9 13 m[2] m[3]
  let s := mix s 2 6 10 14 m[4] m[5]
  let s := mix s 3 7 11 15 m[6] m[7]
  let s := mix s 0 5 10 15 m[8] m[9]
  let s := mix s 1 6 11 12 m[10] m[11]
  let s := mix s 2 7 8 13 m[12] m[13]
  mix s 3 4 9 14 m[14] m[15]

/-- The order in which the next round takes the words of a block. -/
def permute (m : Block) : Block :=
  #v[m[2], m[6], m[3], m[10], m[7], m[0], m[4], m[13],
    m[1], m[11], m[12], m[5], m[9], m[14], m[15], m[8]]

/-- Seven rounds. -/
def rounds : (count : Nat) → (s m : Block) → Block
  | 0, s, _ => s
  | count + 1, s, m => rounds count (round s m) (permute m)

/-- Compresses a block of `size` bytes. -/
def compress (cv : ChainingValue) (m : Block) (counter : Nat) (size flags : UInt32) :
    ChainingValue :=
  let s := rounds 7
    #v[cv[0], cv[1], cv[2], cv[3], cv[4], cv[5], cv[6], cv[7],
      initial[0], initial[1], initial[2], initial[3],
      UInt32.ofNat counter, UInt32.ofNat (counter / 2 ^ (32 : Nat)), size, flags] m
  #v[s[0] ^^^ s[8], s[1] ^^^ s[9], s[2] ^^^ s[10], s[3] ^^^ s[11],
    s[4] ^^^ s[12], s[5] ^^^ s[13], s[6] ^^^ s[14], s[7] ^^^ s[15]]

/-- The words of at most 64 bytes, which zeros fill up. -/
def words (bytes : List UInt8) : Block :=
  let bytes := bytes.toArray
  Vector.ofFn fun i =>
    let byte (j : Nat) : UInt32 := (bytes[4 * i.val + j]?.getD 0).toUInt32
    byte 0 ||| (byte 1 <<< 8) ||| (byte 2 <<< 16) ||| (byte 3 <<< 24)

/-- Compresses the blocks of chunk number `counter`, the last one with the `final` flags. -/
def chunkFrom (counter : Nat) (final : UInt32) (cv : ChainingValue) (start : UInt32)
    (bytes : List UInt8) : ChainingValue :=
  if bytes.length ≤ 64 then
    compress cv (words bytes) counter (UInt32.ofNat bytes.length) (start ||| chunkEnd ||| final)
  else
    chunkFrom counter final (compress cv (words (bytes.take 64)) counter 64 start) 0 (bytes.drop 64)
termination_by bytes.length
decreasing_by
  rw [List.length_drop]
  omega

/-- The number of chunks on the left of the root of a tree for `size` bytes: the largest power of
two that leaves something for the right. -/
def leftChunks (size : Nat) : Nat := 2 ^ ((size - 1) / 1024).log2

theorem leftChunks_pos (size : Nat) : 0 < leftChunks size := Nat.two_pow_pos _

theorem leftChunks_lt {size : Nat} (h : 1024 < size) : 1024 * leftChunks size < size := by
  have : leftChunks size ≤ (size - 1) / 1024 := Nat.log2_self_le (by omega)
  omega

/-- The chaining value of a chunk, or of a tree of chunks, whose first has number `counter`. -/
def tree (counter : Nat) (final : UInt32) (bytes : List UInt8) : ChainingValue :=
  if bytes.length ≤ 1024 then chunkFrom counter final initial chunkStart bytes
  else
    let chunks := leftChunks bytes.length
    let left := tree counter 0 (bytes.take (1024 * chunks))
    let right := tree (counter + chunks) 0 (bytes.drop (1024 * chunks))
    compress initial (left ++ right) 0 64 (parent ||| final)
termination_by bytes.length
decreasing_by
  all_goals
    have := leftChunks_pos bytes.length
    have := leftChunks_lt (by omega : 1024 < bytes.length)
    simp only [List.length_take, List.length_drop]
    omega

/-- The first sixteen bytes of the hash. -/
def digest (bytes : List UInt8) : List UInt8 :=
  let cv := tree 0 root bytes
  [cv[0], cv[1], cv[2], cv[3]].flatMap fun w => Blob.littleEndian 4 w.toNat

end Eligibility.Blake3
