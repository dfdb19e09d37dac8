/-!
# BLAKE3

The 256-bit digest of a text's bytes.  The bytes are cut into chunks of 1024, each chunk is
compressed block by block, and the chunks are joined pairwise in a tree whose left half is the
greatest power of two that leaves something for the right.
-/

namespace Storyboard.Blake3

/-- The state of a compression. -/
abbrev State := Vector UInt32 16

/-- The words that start every compression. -/
def initial : Vector UInt32 8 :=
  #v[0x6A09E667, 0xBB67AE85, 0x3C6EF372, 0xA54FF53A, 0x510E527F, 0x9B05688C, 0x1F83D9AB, 0x5BE0CD19]

/-- The first block of a chunk. -/
def chunkStart : UInt32 := 1

/-- The last block of a chunk. -/
def chunkEnd : UInt32 := 2

/-- A node that joins two others. -/
def parentNode : UInt32 := 4

/-- The last compression of all. -/
def root : UInt32 := 8

/-- Turns a word to the right. -/
def rotateRight (x : UInt32) (n : UInt32) : UInt32 := (x >>> n) ||| (x <<< (32 - n))

/-- Mixes two message words into four words of the state. -/
def mix (s : State) (a b c d : Fin 16) (x y : UInt32) : State :=
  let wa := s[a] + s[b] + x
  let wd := rotateRight (s[d] ^^^ wa) 16
  let wc := s[c] + wd
  let wb := rotateRight (s[b] ^^^ wc) 12
  let wa := wa + wb + y
  let wd := rotateRight (wd ^^^ wa) 8
  let wc := wc + wd
  let wb := rotateRight (wb ^^^ wc) 7
  (((s.set a wa).set b wb).set c wc).set d wd

/-- One round: the columns, and then the diagonals. -/
def round (s : State) (m : State) : State :=
  let s := mix s 0 4 8 12 m[0] m[1]
  let s := mix s 1 5 9 13 m[2] m[3]
  let s := mix s 2 6 10 14 m[4] m[5]
  let s := mix s 3 7 11 15 m[6] m[7]
  let s := mix s 0 5 10 15 m[8] m[9]
  let s := mix s 1 6 11 12 m[10] m[11]
  let s := mix s 2 7 8 13 m[12] m[13]
  mix s 3 4 9 14 m[14] m[15]

/-- The order in which the next round takes the words of the message. -/
def permute (m : State) : State :=
  #v[m[2], m[6], m[3], m[10], m[7], m[0], m[4], m[13], m[1], m[11], m[12], m[5], m[9], m[14],
    m[15], m[8]]

/-- Rounds, with the message permuted between them. -/
def rounds : Nat → State → State → State
  | 0, s, _ => s
  | n + 1, s, m => rounds n (round s m) (permute m)

/-- What goes into a compression. -/
structure Input where
  chaining : Vector UInt32 8
  block : State
  counter : Nat
  length : Nat
  flags : UInt32

/-- The words that a compression yields. -/
def Input.compress (input : Input) : Vector UInt32 8 :=
  let cv := input.chaining
  let start : State :=
    #v[cv[0], cv[1], cv[2], cv[3], cv[4], cv[5], cv[6], cv[7], initial[0], initial[1], initial[2],
      initial[3], UInt32.ofNat input.counter, UInt32.ofNat (input.counter / Nat.pow 2 32),
      UInt32.ofNat input.length, input.flags]
  let s := rounds 7 start input.block
  Vector.ofFn fun i : Fin 8 => s[i.val] ^^^ s[i.val + 8]

/-- The word at a position of bytes, the lowest byte first; bytes that are missing are zero. -/
def wordAt (bytes : List UInt8) (i : Nat) : UInt32 :=
  let byte := fun k => (bytes.getD (4 * i + k) 0).toUInt32
  byte 0 ||| (byte 1 <<< 8) ||| (byte 2 <<< 16) ||| (byte 3 <<< 24)

/-- The words of a block. -/
def blockOf (bytes : List UInt8) : State := Vector.ofFn fun i : Fin 16 => wordAt bytes i

/-- The last compression of a chunk, whose blocks so far have led to `chaining`. -/
def lastOfChunk (counter : Nat) (chaining : Vector UInt32 8) (flags : UInt32)
    (bytes : List UInt8) : Input :=
  let block := bytes.take 64
  let input : Input := ⟨chaining, blockOf block, counter, block.length, flags⟩
  if 64 < bytes.length then lastOfChunk counter input.compress 0 (bytes.drop 64)
  else { input with flags := flags ||| chunkEnd }
termination_by bytes.length
decreasing_by simp only [List.length_drop]; omega

/-- The last compression of a whole chunk. -/
def ofChunk (counter : Nat) (bytes : List UInt8) : Input :=
  lastOfChunk counter initial chunkStart bytes

/-- The compression that joins two nodes. -/
def parent (left right : Vector UInt32 8) : Input where
  chaining := initial
  block := left ++ right
  counter := 0
  length := 64
  flags := parentNode

/-- The size of a chunk in bytes. -/
def chunkSize : Nat := 1024

/-- The bytes that the left half takes of more than one chunk. -/
def leftSize (length : Nat) : Nat := chunkSize * Nat.pow 2 (Nat.log2 ((length - 1) / chunkSize))

theorem leftSize_lt {length : Nat} (h : chunkSize < length) : leftSize length < length := by
  unfold leftSize
  -- the left half takes a power of two of chunks, and leaves at least one byte to the right one
  have hne : (length - 1) / chunkSize ≠ 0 := by
    unfold chunkSize at *
    omega
  have := Nat.log2_self_le hne
  have : chunkSize * Nat.pow 2 (Nat.log2 ((length - 1) / chunkSize)) ≤
      chunkSize * ((length - 1) / chunkSize) := Nat.mul_le_mul_left _ this
  have : chunkSize * ((length - 1) / chunkSize) ≤ length - 1 := Nat.mul_div_le _ _
  unfold chunkSize at *
  omega

theorem leftSize_pos (length : Nat) : 0 < leftSize length := by
  unfold leftSize chunkSize
  exact Nat.mul_pos (by decide) (Nat.two_pow_pos _)

/-- The last compression of the tree over bytes, the first chunk of which has the given number. -/
def ofBytes (counter : Nat) (bytes : List UInt8) : Input :=
  if h : chunkSize < bytes.length then
    let size := leftSize bytes.length
    have : size < bytes.length := leftSize_lt h
    have : 0 < size := leftSize_pos bytes.length
    parent (ofBytes counter (bytes.take size)).compress
      (ofBytes (counter + size / chunkSize) (bytes.drop size)).compress
  else ofChunk counter bytes
termination_by bytes.length
decreasing_by
  · simp only [List.length_take]
    omega
  · simp only [List.length_drop]
    omega

/-- A digit in base sixteen. -/
def hexDigit (n : UInt32) : Char := (Nat.toDigits 16 (n &&& 15).toNat).headD '0'

/-- The digits of a word, the lowest byte first. -/
def hexOfWord (w : UInt32) : List Char :=
  ([0, 8, 16, 24] : List UInt32).flatMap fun shift =>
    [hexDigit (w >>> (shift + 4)), hexDigit (w >>> shift)]

/-- The digest of a text, in lower-case digits of base sixteen. -/
def digest (text : String) : String :=
  let input := ofBytes 0 text.toUTF8.toList
  String.ofList (({ input with flags := input.flags ||| root }).compress.toList.flatMap hexOfWord)

end Storyboard.Blake3
