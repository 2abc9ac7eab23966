import TensorKernels.Text

/-! The unkeyed hash function BLAKE3 with a digest of 32 bytes. A message is cut into chunks of 1024
bytes, a chunk into blocks of 64 bytes; the chunks are the leaves of a binary tree whose left
subtrees are full and as large as they can be. Every node is one compression, and the compression
at the root carries a flag of its own. -/

set_option autoImplicit false

namespace TensorKernels.Blake3

abbrev Words (n : Nat) := Vector UInt32 n

def initialValue : Words 8 :=
  #v[0x6A09E667, 0xBB67AE85, 0x3C6EF372, 0xA54FF53A, 0x510E527F, 0x9B05688C, 0x1F83D9AB, 0x5BE0CD19]

/-- Where each word of a message block comes from in the round before. -/
def messageOrder : Vector (Fin 16) 16 := #v[2, 6, 3, 10, 7, 0, 4, 13, 1, 11, 12, 5, 9, 14, 15, 8]

theorem messageOrder_perm : messageOrder.toList.Perm (List.finRange 16) := by decide

def permute (m : Words 16) : Words 16 := messageOrder.map fun i => m[i]

def rotateRight (w k : UInt32) : UInt32 := (w >>> k) ||| (w <<< (32 - k))

def mix (s : Words 16) (a b c d : Fin 16) (x y : UInt32) : Words 16 :=
  let s := s.set a (s[a] + s[b] + x)
  let s := s.set d (rotateRight (s[d] ^^^ s[a]) 16)
  let s := s.set c (s[c] + s[d])
  let s := s.set b (rotateRight (s[b] ^^^ s[c]) 12)
  let s := s.set a (s[a] + s[b] + y)
  let s := s.set d (rotateRight (s[d] ^^^ s[a]) 8)
  let s := s.set c (s[c] + s[d])
  s.set b (rotateRight (s[b] ^^^ s[c]) 7)

def round (s m : Words 16) : Words 16 :=
  let s := mix s 0 4 8 12 m[0] m[1]
  let s := mix s 1 5 9 13 m[2] m[3]
  let s := mix s 2 6 10 14 m[4] m[5]
  let s := mix s 3 7 11 15 m[6] m[7]
  let s := mix s 0 5 10 15 m[8] m[9]
  let s := mix s 1 6 11 12 m[10] m[11]
  let s := mix s 2 7 8 13 m[12] m[13]
  mix s 3 4 9 14 m[14] m[15]

def rounds : Nat → Words 16 → Words 16 → Words 16
  | 0, s, _ => s
  | k + 1, s, m => rounds k (round s m) (permute m)

def chunkStart : UInt32 := 1
def chunkEnd : UInt32 := 2
def parentNode : UInt32 := 4
def rootNode : UInt32 := 8

structure Node where
  chain : Words 8
  block : Words 16
  counter : Nat
  length : Nat
  flags : UInt32

def Node.compress (n : Node) : Words 8 :=
  let s := n.chain ++ #v[initialValue[0], initialValue[1], initialValue[2], initialValue[3],
    UInt32.ofNat n.counter, UInt32.ofNat (n.counter >>> 32), UInt32.ofNat n.length, n.flags]
  let s := rounds 7 s n.block
  Vector.ofFn fun i : Fin 8 => s[i.val] ^^^ s[i.val + 8]

def word (a b c d : UInt8) : UInt32 :=
  a.toUInt32 ||| (b.toUInt32 <<< 8) ||| (c.toUInt32 <<< 16) ||| (d.toUInt32 <<< 24)

def blockWords (bytes : List UInt8) : Words 16 :=
  let a := bytes.toArray
  Vector.ofFn fun i : Fin 16 =>
    word (a.getD (4 * i) 0) (a.getD (4 * i + 1) 0) (a.getD (4 * i + 2) 0) (a.getD (4 * i + 3) 0)

/-- Compresses the blocks of a chunk up to its last one. `start` is the flag of the first block. -/
def chunkFrom (chain : Words 8) (start : UInt32) (counter : Nat) (bytes : List UInt8) : Node :=
  if _h : bytes.length ≤ 64 then
    ⟨chain, blockWords bytes, counter, bytes.length, start ||| chunkEnd⟩
  else
    let first : Node := ⟨chain, blockWords (bytes.take 64), counter, 64, start⟩
    chunkFrom first.compress 0 counter (bytes.drop 64)
termination_by bytes.length
decreasing_by simp; omega

def chunk (counter : Nat) (bytes : List UInt8) : Node :=
  chunkFrom initialValue chunkStart counter bytes

def parent (left right : Words 8) : Node := ⟨initialValue, left ++ right, 0, 64, parentNode⟩

/-- The bytes of the left subtree: a power of two of chunks that leaves something for the right. -/
def leftLength (n : Nat) : Nat := 1024 <<< Nat.log2 ((n - 1) / 1024)

theorem leftLength_pos (n : Nat) : 0 < leftLength n := by
  have := Nat.two_pow_pos (Nat.log2 ((n - 1) / 1024))
  rw [leftLength, Nat.shiftLeft_eq]
  omega

theorem leftLength_lt {n : Nat} (h : 1024 < n) : leftLength n < n := by
  have := Nat.log2_self_le (n := (n - 1) / 1024) (by omega)
  rw [leftLength, Nat.shiftLeft_eq]
  omega

def tree (counter : Nat) (bytes : List UInt8) : Node :=
  if _h : bytes.length ≤ 1024 then chunk counter bytes
  else
    let k := leftLength bytes.length
    parent (tree counter (bytes.take k)).compress (tree (counter + k / 1024) (bytes.drop k)).compress
termination_by bytes.length
decreasing_by
  · have := leftLength_lt (n := bytes.length) (by omega)
    simp
    omega
  · have := leftLength_pos bytes.length
    simp
    omega

def digest (bytes : List UInt8) : List UInt8 :=
  let top := tree 0 bytes
  let root := { top with flags := top.flags ||| rootNode }
  root.compress.toList.flatMap fun w => Text.littleEndian 4 w.toNat

theorem length_digest (bytes : List UInt8) : (digest bytes).length = 32 := by
  have h (ws : List UInt32) :
      (ws.flatMap fun w => Text.littleEndian 4 w.toNat).length = 4 * ws.length := by
    induction ws with
    | nil => rfl
    | cons w ws ih =>
      rw [List.flatMap_cons, List.length_append, ih, Text.length_littleEndian, List.length_cons]
      omega
  rw [digest, h, Vector.length_toList]

end TensorKernels.Blake3
