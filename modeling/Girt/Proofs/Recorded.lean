import Girt.Object

/-!
# External functions known at recorded inputs

A codec that returns recorded zlib streams for given bodies, and frames every other body by its length.
-/

namespace Girt.Proofs
open ByteLib List

/-- A body after as many ones as it has bytes. -/
def framed (body : Bytes) : Bytes := List.replicate body.length 1 ++ 0 :: body

def recordedZlib (streams : List (Bytes × Bytes)) : Zlib where
  compress body :=
    match streams.find? (fun e => e.1 = body) with
    | some e => e.2
    | none => framed body
  decompress input _ :=
    match streams.find? (fun e => e.2.isPrefixOf input) with
    | some e => some (true, e.1, e.2.length)
    | none =>
      let n := (input.takeWhile (· == 1)).length
      some (true, (input.drop (n + 1)).take n, n + 1 + n)

/-- Recorded streams carry the zlib mark and none begins with another. -/
structure Recorded (streams : List (Bytes × Bytes)) : Prop where
  marked : ∀ e ∈ streams, e.2.head? = some 120
  separate : ∀ e ∈ streams, ∀ e' ∈ streams, e.2 <+: e'.2 → e = e'

lemma takeWhile_framed (body rest : Bytes) :
    ((framed body ++ rest).takeWhile (· == 1)).length = body.length := by
  have happ : framed body ++ rest = replicate body.length 1 ++ 0 :: (body ++ rest) := by
    simp [framed]
  rw [happ, takeWhile_append_of_pos (by simp)]
  simp

lemma head_framed (body rest : Bytes) : (framed body ++ rest).head? ≠ some 120 := by
  cases body with
  | nil => simp [framed]
  | cons b body => simp [framed, replicate_succ]

theorem recordedZlib_inverts {strms : List (Bytes × Bytes)} (h : Recorded strms) :
    (recordedZlib strms).Inverts := by
  intro body rest capacity _
  dsimp only [recordedZlib]
  cases hfind : strms.find? (·.1 = body) with
  | some e =>
    have hmem := mem_of_find?_eq_some hfind
    have hbody : e.1 = body := by simpa using find?_some hfind
    cases hstream : strms.find? (fun e' => e'.2.isPrefixOf (e.2 ++ rest)) with
    | none =>
      have hno := find?_eq_none.mp hstream e hmem
      simp at hno
    | some e' =>
      have hmem' := mem_of_find?_eq_some hstream
      have hpre : e'.2 <+: e.2 ++ rest := by simpa using find?_some hstream
      have heq : e' = e := by
        rcases prefix_or_prefix_of_prefix hpre (prefix_append e.2 rest) with hp | hp
        · exact h.separate e' hmem' e hmem hp
        · exact (h.separate e hmem e' hmem' hp).symm
      rw [heq]
      simp [hbody]
  | none =>
    cases hstream : strms.find? (fun e' => e'.2.isPrefixOf (framed body ++ rest)) with
    | some e' =>
      have hpre : e'.2 <+: framed body ++ rest := by simpa using find?_some hstream
      have hmark := h.marked e' (mem_of_find?_eq_some hstream)
      obtain ⟨tail, htail⟩ := hpre
      have hhead : (framed body ++ rest).head? = some 120 := by
        rw [← htail, head?_append, hmark]
        rfl
      exact absurd hhead (head_framed body rest)
    | none =>
      rw [takeWhile_framed]
      have hdrop : (framed body ++ rest).drop (body.length + 1) = body ++ rest := by
        have happ : framed body ++ rest = (replicate body.length 1 ++ [0]) ++ (body ++ rest) := by
          simp [framed]
        rw [happ, drop_left' (by simp)]
      rw [hdrop, take_left]
      simp only [framed, length_append, length_replicate, length_cons]
      congr 3
      omega

/-- The remainders of the sixteen nibbles. -/
def crcTable : List UInt32 :=
  [0x00000000, 0x1db71064, 0x3b6e20c8, 0x26d930ac, 0x76dc4190, 0x6b6b51f4, 0x4db26158, 0x5005713c,
    0xedb88320, 0xf00f9344, 0xd6d6a3e8, 0xcb61b38c, 0x9b64c2b0, 0x86d3d2d4, 0xa00ae278, 0xbdbdf21c]

def crcNibble (crc : UInt32) (n : UInt8) : UInt32 :=
  crcTable.getD ((crc ^^^ n.toUInt32) &&& 15).toNat 0 ^^^ (crc >>> 4)

/-- The reflected CRC-32 of a byte string, low nibble first. -/
def crc32 (bytes : Bytes) : UInt32 :=
  (bytes.foldl (fun crc b => crcNibble (crcNibble crc (b &&& 15)) (b >>> 4)) 0xffffffff) ^^^ 0xffffffff

example : crc32 (ascii "123456789") = 0xcbf43926 := by decide +kernel

/-- SHA-1 at recorded inputs; the other digests are zero. -/
def recordedDigests (recorded : List (Bytes × Bytes)) : Digests where
  digest format bytes :=
    ((recorded.find? (fun e => e.1 = bytes)).bind (fun e => ObjectId.fromBytes format e.2)).getD (.null format)
  digest_format format bytes := by
    cases h : (recorded.find? (fun e => e.1 = bytes)).bind (fun e => ObjectId.fromBytes format e.2) with
    | none => rfl
    | some id =>
      obtain ⟨e, -, he⟩ := Option.bind_eq_some_iff.mp h
      exact (ObjectId.fromBytes_eq_some he).1

end Girt.Proofs
