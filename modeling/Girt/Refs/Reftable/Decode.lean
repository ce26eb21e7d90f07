import Mathlib.Data.Finset.Card
import Girt.Lib.OrderedMap
import Girt.Refs.Reftable.Encode

/-!
# Decoding one table

The decoder scans the blocks between header and footer in order, collects reference and log
records, and checks that the advertised indexes reach every data block.
-/

namespace Girt.Refs.Reftable

open ByteLib
open Except (error ok)

def bad (reason : String) : Error := .malformed reason

structure Cursor where
  bytes : Bytes
  position : Nat
  endLimit : Nat
  limits : Limits

variable {c : Cursor}

abbrev Parser := StateT Cursor (Except Error)

namespace Parser

variable {α β : Type} {p : Parser α} {f : α → Parser β} {c : Cursor}
variable {r : α × Cursor} {x : Except Error α}

@[simp] lemma bind_ok {r : β × Cursor} :
    (p >>= f) c = .ok r ↔ ∃ a c', p c = .ok (a, c') ∧ f a c' = .ok r := by
  change (p c >>= fun s => f s.1 s.2) = _ ↔ _
  rw [ByteLib.bind_ok, Prod.exists]

@[simp] lemma pure_eq_ok {a : α} : (pure a : Parser α) c = .ok r ↔ r = (a, c) := by
  change ok (a, c) = ok r ↔ _
  rw [Except.ok.injEq, eq_comm]

@[simp] lemma throw_ne_ok {e : Error} : (throw e : Parser α) c = .ok r ↔ False := by
  change error e = ok r ↔ _
  simp

@[simp] lemma lift_eq_ok :
    (liftM x : Parser α) c = .ok r ↔ x = .ok r.1 ∧ r.2 = c := by
  change (x >>= fun a => ok (a, c)) = _ ↔ _
  rw [ByteLib.bind_ok]
  constructor
  · rintro ⟨a, hx, h⟩
    cases h
    exact ⟨hx, rfl⟩
  · rintro ⟨hx, rfl⟩
    exact ⟨r.1, hx, rfl⟩

lemma bind_lift_eq_ok {r : β × Cursor} :
    (liftM x >>= f) c = .ok r ↔ ∃ a, x = .ok a ∧ f a c = .ok r := by
  simp only [bind_ok, lift_eq_ok]
  constructor
  · rintro ⟨a, c', ⟨hx, rfl⟩, h⟩
    exact ⟨a, hx, h⟩
  · rintro ⟨a, hx, h⟩
    exact ⟨a, c, ⟨hx, rfl⟩, h⟩

@[simp] lemma get_eq_ok {r : Cursor × Cursor} : (get : Parser Cursor) c = .ok r ↔ r = (c, c) := by
  change ok (c, c) = ok r ↔ _
  rw [Except.ok.injEq, eq_comm]

end Parser

namespace Cursor

def new (bytes : Bytes) (limits : Limits) : Cursor := ⟨bytes, 0, bytes.length, limits⟩

def rest (c : Cursor) : Bytes := c.bytes.drop c.position

def advance (c : Cursor) (n : Nat) : Cursor := { c with position := c.position + n }

def limited (c : Cursor) (endLimit : Nat) : Cursor := { c with endLimit }

def under (c : Cursor) (limits : Limits) (endLimit : Nat) : Cursor := { c with limits, endLimit }

/-- The next `n` bytes exist and are addressable. -/
def fits (c : Cursor) (n : Nat) : Prop := c.position + n ≤ c.bytes.length ∧ c.position + n ≤ usizeMax

lemma advance_advance (c : Cursor) (m n : Nat) : (c.advance m).advance n = c.advance (m + n) := by
  simp only [advance, Nat.add_assoc]

end Cursor

namespace Parser

variable {α β : Type} {p : Parser α} {f : α → Parser β}

/-- A parser that only moves its cursor forward, and that reads the same under any budget that
leaves room for what it read. -/
structure Steady (p : Parser α) : Prop where
  moves {c : Cursor} {r : α × Cursor} (h : p c = .ok r) : ∃ n, r.2 = c.advance n ∧ (n = 0 ∨ c.fits n)
  relimit {c : Cursor} {r : α × Cursor} {limits : Limits} {endLimit : Nat} (h : p c = .ok r)
    (hstring : limits.stringBytes = c.limits.stringBytes) (hend : r.2.position ≤ endLimit) :
    p (c.under limits endLimit) = .ok (r.1, r.2.under limits endLimit)

lemma Steady.le (hp : Steady p) {r : α × Cursor} (h : p c = .ok r) : c.position ≤ r.2.position := by
  obtain ⟨n, hn, -⟩ := hp.moves h
  rw [hn]
  exact Nat.le_add_right _ _

lemma Steady.bind (hp : Steady p) (hf : ∀ a, Steady (f a)) : Steady (p >>= f) := by
  constructor
  · intro c r h
    obtain ⟨a, c', ha, h⟩ := bind_ok.mp h
    obtain ⟨m, hm, hfirst⟩ := hp.moves ha
    obtain ⟨n, hn, hnext⟩ := (hf a).moves h
    dsimp only at hm
    subst hm
    refine ⟨m + n, by rw [hn, Cursor.advance_advance], ?_⟩
    rcases hnext with rfl | hnext
    · exact hfirst
    · refine Or.inr ?_
      simp only [Cursor.fits, Cursor.advance] at hnext ⊢
      omega
  · intro c r limits endLimit h hstream hend
    obtain ⟨a, c', ha, h⟩ := bind_ok.mp h
    have hroom : c'.position ≤ endLimit := ((hf a).le h).trans hend
    have hlim : c'.limits = c.limits := by
      obtain ⟨m, hm, -⟩ := hp.moves ha
      dsimp only at hm
      rw [hm]
      rfl
    rw [bind_ok]
    exact ⟨a, _, hp.relimit ha hstream hroom, (hf a).relimit h (by rw [hstream, hlim]) hend⟩

lemma Steady.pure (a : α) : Steady (pure a : Parser α) := by
  constructor
  · intro c r h
    rw [pure_eq_ok.mp h]
    exact ⟨0, rfl, Or.inl rfl⟩
  · intro c r limits endLimit h _ _
    rw [pure_eq_ok.mp h]
    rfl

lemma Steady.throw (e : Error) : Steady (throw e : Parser α) :=
  ⟨fun h => (throw_ne_ok.mp h).elim, fun h => (throw_ne_ok.mp h).elim⟩

lemma Steady.lift (x : Except Error α) : Steady (liftM x : Parser α) := by
  constructor
  · intro c r h
    rw [(lift_eq_ok.mp h).2]
    exact ⟨0, rfl, Or.inl rfl⟩
  · intro c r limits endLimit h _ _
    obtain ⟨hx, hc⟩ := lift_eq_ok.mp h
    rw [lift_eq_ok, hc]
    exact ⟨hx, rfl⟩

end Parser

namespace Cursor

def take (length : Nat) : Parser Bytes := fun c =>
  if c.position + length > usizeMax then .error (bad "length overflow")
  else if c.position + length > c.endLimit then .error (.limit "decoded bytes")
  else if c.position + length > c.bytes.length then .error (bad "truncated record")
  else .ok (c.rest.take length, c.advance length)

lemma take_eq_ok {length : Nat} {r : Bytes × Cursor} (h : take length c = .ok r) :
    r = (c.rest.take length, c.advance length) ∧ c.fits length := by
  unfold take at h
  split_ifs at h with h1 h2 h3
  cases h
  exact ⟨rfl, not_lt.mp h3, not_lt.mp h1⟩

def byte : Parser UInt8 := do
  match ← take 1 with
  | [byte] => pure byte
  | _ => throw (bad "truncated record")

lemma byte_eq_ok {r : UInt8 × Cursor} (h : byte c = .ok r) :
    c.rest = r.1 :: (c.advance 1).rest ∧ r.2 = c.advance 1 ∧ c.fits 1 := by
  change (take 1 c >>= _) = _ at h
  obtain ⟨⟨bytes, c'⟩, htake, h⟩ := bind_ok.mp h
  obtain ⟨heq, hfits⟩ := take_eq_ok htake
  cases heq
  have hlen := hfits.1
  have hrest : c.rest = c.bytes.get ⟨c.position, by omega⟩ :: (c.advance 1).rest := by
    unfold rest advance
    exact List.drop_eq_getElem_cons (by omega)
  rw [hrest] at h
  cases h
  exact ⟨hrest, rfl, hfits⟩

/-- The bytes after a continuation byte, accumulated with overflow checks. -/
def varintFrom (value : Nat) (c : Cursor) : Except Error (UInt64 × Cursor) :=
  match h : byte c with
  | .error e => .error e
  | .ok r =>
    let value := (value + 1) * 128 + r.1.toNat % 128
    if 2 ^ 64 ≤ value then .error (bad "varint overflow")
    else if 128 ≤ r.1.toNat then varintFrom value r.2
    else .ok (UInt64.ofNat value, r.2)
termination_by c.bytes.length - c.position
decreasing_by
  obtain ⟨-, hadv, hlen, -⟩ := byte_eq_ok h
  rw [hadv]
  simp only [advance]
  omega

def varint : Parser UInt64 := do
  let byte ← byte
  if 128 ≤ byte.toNat then varintFrom (byte.toNat % 128)
  else pure (UInt64.ofNat byte.toNat)

def u64 : Parser UInt64 := do
  let bytes ← take 8
  pure (UInt64.ofNat (beNat bytes))

def length : Parser Nat := do
  let value ← varint
  pure value.toNat

def string : Parser Bytes := do
  let n ← length
  reject (n > (← get).limits.stringBytes.toNat) (Error.limit "string bytes")
  take n

def id (format : ObjectFormat) : Parser ObjectId := do
  match ObjectId.fromBytes format (← take format.digestLen) with
  | some id => pure id
  | none => throw (bad "object ID")

section Steady
open Girt.Refs.Reftable.Parser

variable {r : UInt8 × Cursor} {value : Nat}

lemma take_steady (n : Nat) : Steady (take n) := by
  constructor
  · intro c r h
    exact ⟨n, congrArg Prod.snd (take_eq_ok h).1, Or.inr (take_eq_ok h).2⟩
  · intro c r limits endLimit h _ hend
    unfold take at h ⊢
    split_ifs at h with h1 h2 h3
    cases h
    have hroom : ¬ c.position + n > endLimit := not_lt.mpr hend
    change (if c.position + n > usizeMax then _ else if c.position + n > endLimit then _ else
      if c.position + n > c.bytes.length then _ else _) = _
    rw [if_neg h1, if_neg hroom, if_neg h3]
    rfl

lemma byte_steady : Steady byte := by
  refine (take_steady 1).bind (fun bytes => ?_)
  split
  · exact .pure _
  · exact .throw _

lemma byte_lt (h : byte c = .ok r) : c.position < r.2.position := by
  rw [(byte_eq_ok h).2.1]
  simp [advance]

lemma varintFrom_lt {r : UInt64 × Cursor}
    (h : varintFrom value c = .ok r) : c.position < r.2.position := by
  fun_induction varintFrom value c with
  | case1 | case2 => cases h
  | case3 value c b hb v hover hmore ih => exact (byte_lt hb).trans (ih h)
  | case4 value c b hb =>
    cases h
    exact byte_lt hb

lemma varintFrom_of_byte (h : byte c = .ok r) :
    varintFrom value c =
      if 2 ^ 64 ≤ (value + 1) * 128 + r.1.toNat % 128 then .error (bad "varint overflow")
      else if 128 ≤ r.1.toNat then varintFrom ((value + 1) * 128 + r.1.toNat % 128) r.2
      else .ok (UInt64.ofNat ((value + 1) * 128 + r.1.toNat % 128), r.2) := by
  rw [varintFrom]
  split
  · rename_i hb
    rw [h] at hb
    cases hb
  · rename_i hb
    rw [h] at hb
    cases hb
    rfl

lemma varintFrom_steady (value : Nat) : Steady (varintFrom value) := by
  constructor
  · intro c r h
    fun_induction varintFrom value c with
    | case1 | case2 => cases h
    | case3 value c b hb v hover hmore ih =>
      obtain ⟨n, hn, hnext⟩ := ih h
      obtain ⟨-, hb, hfits⟩ := byte_eq_ok hb
      refine ⟨1 + n, by rw [hn, hb, advance_advance], Or.inr ?_⟩
      rw [hb] at hnext
      simp only [fits, advance] at hnext hfits ⊢
      omega
    | case4 value c b hb =>
      cases h
      exact ⟨1, (byte_eq_ok hb).2.1, Or.inr (byte_eq_ok hb).2.2⟩
  · intro c r limits endLimit h hstream hend
    fun_induction varintFrom value c with
    | case1 | case2 => cases h
    | case3 value c b hb v hover hmore ih =>
      have hle : b.2.position ≤ r.2.position := (varintFrom_lt h).le
      have hlim : b.2.limits = c.limits := by
        rw [(byte_eq_ok hb).2.1]
        rfl
      have hbyte := byte_steady.relimit hb hstream (hle.trans hend)
      have hrest := ih h (by rw [hstream, hlim])
      rw [varintFrom_of_byte hbyte, if_neg hover, if_pos hmore]
      exact hrest
    | case4 value c b hb v hover hlast =>
      cases h
      have hbyte := byte_steady.relimit hb hstream hend
      rw [varintFrom_of_byte hbyte, if_neg hover, if_neg hlast]

lemma varint_steady : Steady varint := by
  refine byte_steady.bind (fun b => ?_)
  split
  · exact varintFrom_steady _
  · exact .pure _

lemma varint_lt {r : UInt64 × Cursor} (h : varint c = .ok r) : c.position < r.2.position := by
  obtain ⟨b, c', hb, h⟩ := Parser.bind_ok.mp h
  split at h
  · exact (byte_lt hb).trans (varintFrom_lt h)
  · cases h
    exact byte_lt hb

lemma length_steady : Steady length := varint_steady.bind (fun _ => .pure _)

lemma length_lt {r : Nat × Cursor} (h : length c = .ok r) : c.position < r.2.position := by
  obtain ⟨v, c', hv, h⟩ := Parser.bind_ok.mp h
  rw [Parser.pure_eq_ok.mp h]
  exact varint_lt hv

lemma checkedTake_steady (n : Nat) :
    Steady (do reject (n > (← get).limits.stringBytes.toNat) (Error.limit "string bytes"); take n) := by
  have hok {c : Cursor} {r : Bytes × Cursor} :
      (do reject (n > (← get).limits.stringBytes.toNat) (Error.limit "string bytes"); take n : Parser _) c =
        .ok r ↔ n ≤ c.limits.stringBytes.toNat ∧ take n c = .ok r := by
    simp only [Parser.bind_ok, Parser.get_eq_ok]
    constructor
    · rintro ⟨_, _, hget, u, c', hrej, h⟩
      cases hget
      obtain ⟨hrej, rfl⟩ := Parser.lift_eq_ok.mp hrej
      exact ⟨not_lt.mp (reject_ok.mp hrej), h⟩
    · rintro ⟨hn, h⟩
      exact ⟨c, c, rfl, (), c, Parser.lift_eq_ok.mpr ⟨reject_ok.mpr hn.not_gt, rfl⟩, h⟩
  constructor
  · intro c r h
    exact (take_steady n).moves (hok.mp h).2
  · intro c r limits endLimit h hstream hend
    obtain ⟨hn, h⟩ := hok.mp h
    rw [hok]
    exact ⟨by rwa [show (c.under limits endLimit).limits = limits from rfl, hstream],
      (take_steady n).relimit h hstream hend⟩

lemma string_steady : Steady string := length_steady.bind checkedTake_steady

lemma id_steady (format : ObjectFormat) : Steady (id format) := by
  refine (take_steady _).bind (fun bytes => ?_)
  split
  · exact .pure _
  · exact .throw _

end Steady

end Cursor

structure Header where
  size : Nat
  alignment : Nat
  format : ObjectFormat
  min : UInt64
  max : UInt64

namespace Header
open Cursor

def parseFields : Parser Header := do
  reject ((← take 4) ≠ ascii "REFT") (bad "magic")
  let version ← byte
  let alignment ← take 3
  let min ← u64
  let max ← u64
  reject (min > max) (bad "update range")
  if version = 1 then
    pure ⟨24, beNat alignment, .sha1, min, max⟩
  else if version = 2 then
    let hash ← take 4
    if hash = ascii "sha1" then pure ⟨28, beNat alignment, .sha1, min, max⟩
    else if hash = ascii "s256" then pure ⟨28, beNat alignment, .sha256, min, max⟩
    else throw (.unsupported "hash identifier")
  else throw (.unsupported "version")

def parse (bytes : Bytes) : Except Error Header := do
  let (header, _) ← parseFields (Cursor.new bytes Limits.default)
  pure header

end Header

/-- One block after decompression. Every block consumes some input. -/
structure Block where
  data : Bytes
  recordsEnd : Nat
  restarts : List Nat
  consumed : Nat
  consumed_pos : 0 < consumed

namespace Block

def chunks3 : Bytes → List Nat
  | a :: b :: c :: rest => beNat [a, b, c] :: chunks3 rest
  | _ => []

/-- The block's data and the bytes it occupies after the block header. -/
def readData (zlib : Zlib) (kind : UInt8) (bytes : Bytes) (dataLen : Nat) :
    Except Error (Bytes × Nat) :=
  if kind = logBlock then
    match zlib.decompress bytes (dataLen + 1) with
    | none => .error (bad "log compression")
    | some (ended, output, consumed) =>
      if ended = false ∨ output.length ≠ dataLen then .error (bad "inflated log length")
      else .ok (output, consumed)
  else if bytes.length < dataLen then .error (bad "truncated block")
  else .ok (bytes.take dataLen, dataLen)

def increasing (restarts : List Nat) : Bool :=
  (restarts.zip restarts.tail).all (fun pair => pair.1 < pair.2)

def read (zlib : Zlib) (bytes : Bytes) (start : Nat) (limits : Limits) : Except Error Block :=
  match bytes with
  | kind :: high :: middle :: low :: payload => do
    let length := beNat [high, middle, low]
    reject (length > limits.blockBytes.toNat) (.limit "block bytes")
    reject (length < start + 4) (bad "block length")
    let (data, consumed) ← readData zlib kind payload (length - (start + 4))
    reject (data.length < 2) (bad "restart count")
    let tableLen := data.length - 2
    let count := beNat (data.drop tableLen)
    reject (count = 0) (bad "empty restart table")
    reject (tableLen < count * 3) (bad "restart table")
    let recordsEnd := tableLen - count * 3
    let restarts := chunks3 ((data.take tableLen).drop recordsEnd)
    reject (restarts.head? ≠ some (start + 4) ∨ increasing restarts = false ∨
      ¬ restarts.getLast?.any (fun last => last < recordsEnd + start + 4)) (bad "restart offsets")
    pure ⟨data, recordsEnd, restarts, 4 + consumed, by omega⟩
  | _ => .error (bad "block header")

end Block

def decodeRef (key : Bytes) (kind : Nat) (header : Header) : Parser RefRecord := do
  let name ← RecordName.new key
  let delta ← Cursor.varint
  reject (header.min.toNat + delta.toNat ≥ 2 ^ 64) (bad "update overflow")
  let updateIndex := header.min + delta
  reject (updateIndex > header.max) (bad "reference update range")
  match kind with
  | 0 => pure ⟨name, updateIndex, none, none⟩
  | 1 => do
    let id ← Cursor.id header.format
    pure ⟨name, updateIndex, some (.direct id), none⟩
  | 2 => do
    let target ← Cursor.id header.format
    let peeled ← Cursor.id header.format
    pure ⟨name, updateIndex, some (.direct target), some peeled⟩
  | 3 => do
    match RefName.new (← Cursor.string) with
    | some target => pure ⟨name, updateIndex, some (.symbolic target), none⟩
    | none => throw (bad "symbolic target")
  | _ => throw (.unsupported "reference value type")

def splitLogKey (key : Bytes) : Except Error (Bytes × UInt64) :=
  if key.length < 8 then .error (bad "log key")
  else
    let name := key.take (key.length - 8)
    if name.getLast? ≠ some 0 then .error (bad "log key separator")
    else .ok (name.dropLast, ~~~UInt64.ofNat (beNat (key.drop (key.length - 8))))

def decodeLogValue (format : ObjectFormat) : Parser LogValue := do
  let old ← Cursor.id format
  let new ← Cursor.id format
  let name ← Cursor.string
  let email ← Cursor.string
  let seconds ← Cursor.varint
  let offset ← Cursor.take 2
  let message ← Cursor.string
  pure ⟨old, new, name, email, seconds, Timezone.decode offset, message⟩

def decodeLog (key : Bytes) (kind : Nat) (header : Header) : Parser LogRecord := do
  let (name, updateIndex) ← splitLogKey key
  let name ← RecordName.new name
  reject (updateIndex > header.max) (bad "log update range")
  match kind with
  | 0 => pure ⟨name, updateIndex, none⟩
  | 1 => do
    let value ← decodeLogValue header.format
    pure ⟨name, updateIndex, some value⟩
  | _ => throw (.unsupported "log value type")

structure Walk where
  references : List RefRecord
  logs : List LogRecord
  records : Nat
  decodedBytes : Nat
  blocks : OrdMap Nat (UInt8 × Bytes)
  indexSections : OrdMap Nat UInt8
  indexLinks : OrdMap Nat (List Nat)
  lastRef : Bytes
  lastLog : Bytes

/-- The table and the section positions its footer advertises. -/
structure Frame where
  bytes : Bytes
  limits : Limits
  header : Header
  footerStart : Nat
  refIndex : Nat
  object : Nat
  objectIndex : Nat
  log : Nat
  logIndex : Nat
  firstLog : Bool

namespace Frame

/-- The block type the section at `position` calls for. -/
def expected (f : Frame) (position : Nat) : UInt8 :=
  if f.logIndex ≠ 0 ∧ position ≥ f.logIndex then indexBlock
  else if (f.log ≠ 0 ∧ position ≥ f.log) ∨ f.firstLog then logBlock
  else if f.objectIndex ≠ 0 ∧ position ≥ f.objectIndex then indexBlock
  else if f.object >>> 5 ≠ 0 ∧ position ≥ f.object >>> 5 then objectBlock
  else if f.refIndex ≠ 0 ∧ position ≥ f.refIndex then indexBlock
  else refBlock

def leafKind (f : Frame) (position : Nat) : UInt8 :=
  if (f.log ≠ 0 ∧ position ≥ f.log) ∨ f.firstLog then logBlock
  else if f.object >>> 5 ≠ 0 ∧ position ≥ f.object >>> 5 then objectBlock
  else refBlock

def rootIndex (f : Frame) (position : Nat) : Nat :=
  if f.leafKind position = logBlock then f.logIndex
  else if f.leafKind position = objectBlock then f.objectIndex
  else f.refIndex

/-- The file header counts in the offsets of the first block of a table. -/
def start (f : Frame) (position : Nat) (kind : UInt8) : Nat :=
  if position = f.header.size ∧ (kind ≠ logBlock ∨ f.firstLog) then f.header.size else 0

end Frame

structure Scan where
  frame : Frame
  kind : UInt8
  leafKind : UInt8
  start : Nat
  block : Block

structure Progress where
  cursor : Cursor
  key : Bytes
  restart : Nat
  links : List Nat
  walk : Walk

/-- An index record must repeat the last key of the block it points to. -/
def checkIndexTarget (scan : Scan) (walk : Walk) (key : Bytes) (valueType target : Nat) :
    Except Error Unit :=
  match walk.blocks.get target with
  | none => .error (bad "index pointer")
  | some (targetKind, targetKey) =>
    if valueType ≠ 0 ∨
        (targetKind ≠ scan.leafKind ∧
          (targetKind ≠ indexBlock ∨ walk.indexSections.get target ≠ some scan.leafKind)) ∨
        targetKey ≠ key then
      .error (bad "index key or block type")
    else .ok ()

/-- The block positions of an object record; `count` of them remain. -/
def objectPositions (blocks : OrdMap Nat (UInt8 × Bytes)) : Nat → Bool → Nat → Parser Unit
  | 0, _, _ => pure ()
  | count + 1, first, offset => do
    let delta ← Cursor.varint
    reject (first = false ∧ delta = 0) (bad "object position order")
    let offset := offset + delta.toNat
    reject (offset ≥ 2 ^ 64) (bad "object offset overflow")
    reject (¬ (blocks.get offset).any (fun block => block.1 = refBlock)) (bad "object position")
    objectPositions blocks count false offset

def objectCount (valueType : Nat) : Parser Nat :=
  if valueType = 0 then Cursor.length else pure valueType

def decodeObject (scan : Scan) (walk : Walk) (key : Bytes) (valueType : Nat) : Parser Unit := do
  reject (key.length ≠ scan.frame.object % 32 ∨ key.length < 2) (bad "object abbreviation")
  let count ← objectCount valueType
  reject (count > scan.block.data.length) (bad "object position count")
  objectPositions walk.blocks count true 0

def decodeValue (scan : Scan) (key : Bytes) (valueType : Nat) (walk : Walk) (links : List Nat) :
    Parser (Walk × List Nat) := do
  if scan.kind = refBlock then
    reject (walk.lastRef ≠ [] ∧ key ≤ walk.lastRef) (bad "reference order")
    let record ← decodeRef key valueType scan.frame.header
    pure ({ walk with references := walk.references ++ [record], lastRef := key }, links)
  else if scan.kind = logBlock then
    reject (walk.lastLog ≠ [] ∧ key ≤ walk.lastLog) (bad "log order")
    let record ← decodeLog key valueType scan.frame.header
    pure ({ walk with logs := walk.logs ++ [record], lastLog := key }, links)
  else if scan.kind = indexBlock then
    let target ← Cursor.varint
    checkIndexTarget scan walk key valueType target.toNat
    pure (walk, links ++ [target.toNat])
  else if scan.kind = objectBlock then
    decodeObject scan walk key valueType
    pure (walk, links)
  else throw (bad "block type")

def charge (limits : Limits) (decoded more : Nat) : Except Error Nat :=
  if decoded + more > usizeMax then .error (.limit "decoded bytes")
  else if decoded + more > limits.decodedBytes.toNat then .error (.limit "decoded bytes")
  else .ok (decoded + more)

/-- Counts a record whose key is stored whole at a restart offset. -/
def nextRestart (scan : Scan) (restart offset prefixLen : Nat) : Except Error Nat :=
  if scan.block.restarts[restart]? = some offset then
    if prefixLen ≠ 0 then .error (bad "compressed restart") else .ok (restart + 1)
  else .ok restart

def decodeRecord (scan : Scan) (s : Progress) : Except Error Progress := do
  let limits := scan.frame.limits
  let records := s.walk.records + 1
  reject (records > limits.records.toNat) (.limit "record count")
  let offset := s.cursor.position + scan.start + 4
  let (prefixLen, cursor) ← Cursor.length s.cursor
  let restart ← nextRestart scan s.restart offset prefixLen
  let (tagged, cursor) ← Cursor.varint cursor
  let suffixLen := tagged.toNat >>> 3
  reject (prefixLen > s.key.length ∨ prefixLen + suffixLen > usizeMax ∨
    prefixLen + suffixLen > limits.stringBytes.toNat) (bad "key prefix or length")
  let decoded ← charge limits s.walk.decodedBytes (prefixLen + suffixLen)
  let recordStart := cursor.position
  let budget := min (cursor.position + (limits.decodedBytes.toNat - decoded)) usizeMax
  let (suffix, cursor) ← Cursor.take suffixLen (cursor.limited budget)
  let next := s.key.take prefixLen ++ suffix
  reject (s.key ≠ [] ∧ next ≤ s.key) (bad "record key order")
  let ((walk, links), cursor) ←
    decodeValue scan next (tagged.toNat % 8) { s.walk with records } s.links cursor
  let decodedBytes ← charge limits decoded (cursor.position - recordStart)
  pure { cursor, key := next, restart, links, walk := { walk with decodedBytes } }

section Steady
open Girt.Refs.Reftable.Parser

lemma decodeRef_steady (key : Bytes) (kind : Nat) (header : Header) :
    Steady (decodeRef key kind header) := by
  refine (Steady.lift _).bind (fun name => Cursor.varint_steady.bind (fun delta =>
    (Steady.lift _).bind (fun _ => (Steady.lift _).bind (fun _ => ?_))))
  split
  · exact .pure _
  · exact (Cursor.id_steady _).bind (fun _ => .pure _)
  · exact (Cursor.id_steady _).bind (fun _ => (Cursor.id_steady _).bind (fun _ => .pure _))
  · refine Cursor.string_steady.bind (fun bytes => ?_)
    split
    · exact .pure _
    · exact .throw _
  · exact .throw _

lemma decodeLogValue_steady (format : ObjectFormat) : Steady (decodeLogValue format) :=
  (Cursor.id_steady _).bind (fun _ => (Cursor.id_steady _).bind (fun _ =>
    Cursor.string_steady.bind (fun _ => Cursor.string_steady.bind (fun _ =>
      Cursor.varint_steady.bind (fun _ => (Cursor.take_steady _).bind (fun _ =>
        Cursor.string_steady.bind (fun _ => .pure _)))))))

lemma decodeLog_steady (key : Bytes) (kind : Nat) (header : Header) :
    Steady (decodeLog key kind header) := by
  refine (Steady.lift _).bind (fun split => (Steady.lift _).bind (fun name =>
    (Steady.lift _).bind (fun _ => ?_)))
  split
  · exact .pure _
  · exact (decodeLogValue_steady _).bind (fun _ => .pure _)
  · exact .throw _

lemma objectPositions_steady (blocks : OrdMap Nat (UInt8 × Bytes)) (count : Nat) (first : Bool)
    (offset : Nat) : Steady (objectPositions blocks count first offset) := by
  induction count generalizing first offset with
  | zero => exact .pure _
  | succ count ih =>
    exact Cursor.varint_steady.bind (fun delta => (Steady.lift _).bind (fun _ =>
      (Steady.lift _).bind (fun _ => (Steady.lift _).bind (fun _ => ih _ _))))

lemma decodeObject_steady (scan : Scan) (walk : Walk) (key : Bytes) (valueType : Nat) :
    Steady (decodeObject scan walk key valueType) := by
  refine (Steady.lift _).bind (fun _ => Steady.bind ?_ (fun count =>
    (Steady.lift _).bind (fun _ => objectPositions_steady _ _ _ _)))
  unfold objectCount
  split
  · exact Cursor.length_steady
  · exact .pure _

lemma decodeValue_steady (scan : Scan) (key : Bytes) (valueType : Nat) (walk : Walk)
    (links : List Nat) : Steady (decodeValue scan key valueType walk links) := by
  unfold decodeValue
  split_ifs
  · exact (Steady.lift _).bind (fun _ => (decodeRef_steady _ _ _).bind (fun _ => .pure _))
  · exact (Steady.lift _).bind (fun _ => (decodeLog_steady _ _ _).bind (fun _ => .pure _))
  · exact Cursor.varint_steady.bind (fun _ => (Steady.lift _).bind (fun _ => .pure _))
  · exact (decodeObject_steady _ _ _ _).bind (fun _ => .pure _)
  · exact .throw _

end Steady

/-- One record as it is read: a prefix length, a tagged suffix length, the suffix and the value. -/
structure RecordRead (scan : Scan) (s s' : Progress) (prefixLen decoded total : Nat) (tagged : UInt64)
    (suffix : Bytes) (c₁ c₂ c₃ : Cursor) (walk : Walk) : Prop where
  count : s.walk.records + 1 ≤ scan.frame.limits.records.toNat
  readPrefix : Cursor.length s.cursor = .ok (prefixLen, c₁)
  readRestart : nextRestart scan s.restart (s.cursor.position + scan.start + 4) prefixLen = .ok s'.restart
  readTagged : Cursor.varint c₁ = .ok (tagged, c₂)
  keyFits : ¬ (prefixLen > s.key.length ∨ prefixLen + tagged.toNat >>> 3 > usizeMax ∨
    prefixLen + tagged.toNat >>> 3 > scan.frame.limits.stringBytes.toNat)
  chargeKey : charge scan.frame.limits s.walk.decodedBytes (prefixLen + tagged.toNat >>> 3) = .ok decoded
  readSuffix : Cursor.take (tagged.toNat >>> 3)
    (c₂.limited (min (c₂.position + (scan.frame.limits.decodedBytes.toNat - decoded)) usizeMax)) =
      .ok (suffix, c₃)
  key_eq : s'.key = s.key.take prefixLen ++ suffix
  keyOrder : ¬ (s.key ≠ [] ∧ s'.key ≤ s.key)
  readValue : decodeValue scan s'.key (tagged.toNat % 8) { s.walk with records := s.walk.records + 1 }
    s.links c₃ = .ok ((walk, s'.links), s'.cursor)
  chargeValue : charge scan.frame.limits decoded (s'.cursor.position - c₂.position) = .ok total
  walk_eq : s'.walk = { walk with decodedBytes := total }

variable {scan : Scan} {s s' : Progress} {position : Nat}

lemma decodeRecord_eq_ok :
    decodeRecord scan s = .ok s' ↔ ∃ prefixLen decoded total tagged suffix c₁ c₂ c₃ walk,
      RecordRead scan s s' prefixLen decoded total tagged suffix c₁ c₂ c₃ walk := by
  simp only [decodeRecord, ByteLib.bind_ok, reject_ok]
  constructor
  · rintro ⟨-, hrecs, ⟨prefixLen, c₁⟩, hlen, restart, hres, ⟨tagged, c₂⟩, htag, -, hkey,
      decoded, hdec, ⟨suffix, c₃⟩, hsuf, -, hord, ⟨⟨walk, links⟩, c₄⟩, hval, total, htot, h⟩
    cases h
    exact ⟨prefixLen, decoded, total, tagged, suffix, c₁, c₂, c₃, walk, not_lt.mp hrecs, hlen,
      hres, htag, hkey, hdec, hsuf, rfl, hord, hval, htot, rfl⟩
  · rintro ⟨prefixLen, decoded, total, tagged, suffix, c₁, c₂, c₃, walk, h⟩
    have hord := h.keyOrder
    have hval := h.readValue
    rw [h.key_eq] at hord hval
    refine ⟨(), not_lt.mpr h.count, _, h.readPrefix, _, h.readRestart, _, h.readTagged, (),
      h.keyFits, _, h.chargeKey,
      _, h.readSuffix, (), hord, _, hval, _, h.chargeValue, ?_⟩
    rw [← h.walk_eq, ← h.key_eq]
    rfl

lemma decodeRecord_lt (h : decodeRecord scan s = .ok s') :
    s.cursor.position < s'.cursor.position := by
  obtain ⟨prefixLen, decoded, total, tagged, suffix, c₁, c₂, c₃, walk, hread⟩ := decodeRecord_eq_ok.mp h
  have h1 := Cursor.length_lt hread.readPrefix
  have h2 := Cursor.varint_lt hread.readTagged
  have h3 := (Cursor.take_steady _).le hread.readSuffix
  have h4 := (decodeValue_steady _ _ _ _ _).le hread.readValue
  dsimp only [Cursor.limited] at h1 h2 h3 h4
  omega

def decodeRecords (scan : Scan) (s : Progress) : Except Error Progress :=
  if s.cursor.position < scan.block.recordsEnd then
    match _h : decodeRecord scan s with
    | .error e => .error e
    | .ok s' => decodeRecords scan s'
  else .ok s
termination_by scan.block.recordsEnd - s.cursor.position
decreasing_by
  have := decodeRecord_lt _h
  omega

def decodeBlock (zlib : Zlib) (f : Frame) (position : Nat) (kind : UInt8) (walk : Walk) :
    Except Error (Block × Walk) := do
  let childIndex : Bool :=
    kind = indexBlock ∧ f.rootIndex position ≠ 0 ∧ position ≤ f.rootIndex position
  reject (kind ≠ f.expected position ∧ childIndex = false) (bad "block section type")
  let start := f.start position kind
  reject ((kind = refBlock ∨ kind = objectBlock) ∧ f.header.alignment ≠ 0 ∧
    f.bytes.length < position + 4) (bad "block header")
  reject ((kind = refBlock ∨ kind = objectBlock) ∧ f.header.alignment ≠ 0 ∧
    beNat ((f.bytes.drop (position + 1)).take 3) > f.header.alignment) (bad "block exceeds alignment")
  let block ← Block.read zlib ((f.bytes.take f.footerStart).drop position) start f.limits
  let scan : Scan := ⟨f, kind, f.leafKind position, start, block⟩
  let s ← decodeRecords scan ⟨Cursor.new block.data f.limits, [], 0, [], walk⟩
  reject (s.cursor.position ≠ block.recordsEnd ∨ s.restart ≠ block.restarts.length)
    (bad "record/restart boundary")
  let walk := if kind = indexBlock then
      { s.walk with indexSections := s.walk.indexSections.insert position (f.leafKind position),
                    indexLinks := s.walk.indexLinks.insert position s.links }
    else s.walk
  let slot := if start = 0 then position else 0
  pure (block, { walk with blocks := walk.blocks.insert slot (kind, s.key) })

/-- The end of the zero padding that starts at `position`. -/
def paddingEnd (f : Frame) (position : Nat) : Nat :=
  position + (f.header.alignment - position % max f.header.alignment 1)

def checkPadding (f : Frame) (position : Nat) : Except Error Unit := do
  reject (paddingEnd f position > usizeMax) (bad "padding overflow")
  reject (f.header.alignment = 0 ∨ paddingEnd f position > f.footerStart ∨
    ((f.bytes.take (paddingEnd f position)).drop position).any (· ≠ 0)) (bad "block padding")

lemma checkPadding_lt {f : Frame} {u : Unit} (h : checkPadding f position = .ok u) :
    position < paddingEnd f position := by
  simp only [checkPadding, ByteLib.bind_ok, reject_ok, not_or] at h
  obtain ⟨-, -, hali, -⟩ := h
  have hmod : position % max f.header.alignment 1 < max f.header.alignment 1 :=
    Nat.mod_lt _ (by omega)
  unfold paddingEnd
  omega

def decodeBlocks (zlib : Zlib) (f : Frame) (position : Nat) (walk : Walk) : Except Error Walk :=
  if position < f.footerStart then
    match f.bytes[position]? with
    | none => .error (bad "block header")
    | some kind =>
      if kind = 0 then
        match _h : checkPadding f position with
        | .error e => .error e
        | .ok _ => decodeBlocks zlib f (paddingEnd f position) walk
      else
        match decodeBlock zlib f position kind walk with
        | .error e => .error e
        | .ok (block, walk) => decodeBlocks zlib f (position + block.consumed) walk
  else .ok walk
termination_by f.footerStart - position
decreasing_by
  · have := checkPadding_lt _h
    omega
  · have := block.consumed_pos
    omega

/-- The index links whose block has not been visited. -/
def openLinks : List (Nat × List Nat) → Finset Nat → Nat
  | [], _ => 0
  | e :: rest, visited => (if e.1 ∈ visited then 0 else e.2.length) + openLinks rest visited

lemma openLinks_insert {links : List (Nat × List Nat)} {visited : Finset Nat}
    (h : position ∉ visited) :
    openLinks links (insert position visited) +
      ((OrderedMap.lookup position links).getD []).length ≤ openLinks links visited := by
  induction links with
  | nil => simp [openLinks, OrderedMap.lookup]
  | cons e rest ih =>
    by_cases he : position = e.1
    · subst he
      simp only [openLinks, OrderedMap.lookup, Finset.mem_insert_self, if_true, Option.getD_some, h,
        if_false]
      omega
    · have hne : e.1 ≠ position := fun heq => he heq.symm
      simp only [openLinks, OrderedMap.lookup, Finset.mem_insert, he, hne, false_or, if_false]
      omega

/-- Follows index links from the pending blocks; the last of them is taken first. -/
def visitIndex (links : OrdMap Nat (List Nat)) (pending : List Nat) (visited : Finset Nat) :
    Except Error (Finset Nat) :=
  match pending with
  | [] => .ok visited
  | position :: rest =>
    if position ∈ visited then .error (bad "duplicate index child")
    else
      visitIndex links (((links.get position).getD []).reverse ++ rest) (insert position visited)
termination_by pending.length + openLinks links.entries visited
decreasing_by
  have hlinks : openLinks links.entries (insert position visited) +
      ((OrderedMap.lookup position links.entries).getD []).length ≤ openLinks links.entries visited :=
    openLinks_insert ‹position ∉ visited›
  simp only [OrdMap.get, List.length_append, List.length_reverse, List.length_cons]
  omega

/-- Every data block must be reachable from its advertised index root. -/
def validateIndex (root : Nat) (kind : UInt8) (requiredForMultiple : Bool) (walk : Walk) :
    Except Error Unit :=
  let expected := ((walk.blocks.entries.filter (fun e =>
    e.2.1 = kind ∨ walk.indexSections.get e.1 = some kind)).map Prod.fst).toFinset
  if root = 0 then
    reject ((requiredForMultiple ∧ expected.card > 1) ∨
      walk.indexSections.entries.any (fun e => e.2 = kind)) (bad "missing index root")
  else do
    reject (walk.indexSections.get root ≠ some kind) (bad "index root type")
    let pending := ((walk.indexSections.rangeFrom root).filter (fun e => e.2 = kind)).map Prod.fst
    let visited ← visitIndex walk.indexLinks pending.reverse ∅
    reject (visited ≠ expected) (bad "incomplete index coverage")

/-- Advertised positions lie between header and footer, in order. -/
def checkPositions (f : Frame) : List Nat → Nat → Except Error Unit
  | [], _ => .ok ()
  | position :: rest, previous => do
    reject (position < f.header.size ∨ position ≥ f.footerStart ∨ position < previous)
      (bad "section positions")
    checkPositions f rest position

namespace Frame

def positions (f : Frame) : List Nat :=
  [f.refIndex, f.object >>> 5, f.objectIndex, f.log, f.logIndex].filter (· ≠ 0)

def sectionPositions : Parser (UInt64 × UInt64 × UInt64 × UInt64 × UInt64) := do
  let refIndex ← Cursor.u64
  let object ← Cursor.u64
  let objectIndex ← Cursor.u64
  let log ← Cursor.u64
  let logIndex ← Cursor.u64
  pure (refIndex, object, objectIndex, log, logIndex)

def read (crc32 : Bytes → UInt32) (bytes : Bytes) (limits : Limits) : Except Error Frame := do
  let header ← Header.parse bytes
  reject (bytes.length < header.size + 44) (bad "footer")
  let footerStart := bytes.length - (header.size + 44)
  reject (footerStart < header.size) (bad "overlapping header and footer")
  let footer := bytes.drop footerStart
  reject (footer.take header.size ≠ bytes.take header.size) (bad "header/footer mismatch")
  let checked := footer.take (header.size + 40)
  reject ((crc32 checked).toNat ≠ beNat (footer.drop (header.size + 40))) (bad "footer checksum")
  let ((refIndex, object, objectIndex, log, logIndex), _) ←
    sectionPositions (Cursor.new (checked.drop header.size) limits)
  let firstLog : Bool := log = 0 ∧ bytes[header.size]? = some logBlock
  pure ⟨bytes, limits, header, footerStart, refIndex.toNat, object.toNat, objectIndex.toNat,
    log.toNat, logIndex.toNat, firstLog⟩

end Frame

def Walk.empty : Walk := ⟨[], [], 0, 0, .empty, .empty, .empty, [], []⟩

namespace Table

def decodeUsage (zlib : Zlib) (crc32 : Bytes → UInt32) (bytes : Bytes) (limits : Limits) :
    Except Error (Table × Nat × Nat) := do
  reject (bytes.length > limits.bytes.toNat) (.limit "table bytes")
  let f ← Frame.read crc32 bytes limits
  checkPositions f f.positions 0
  let walk ← decodeBlocks zlib f f.header.size Walk.empty
  reject (f.positions.any (fun position => walk.blocks.contains position = false))
    (bad "section block boundary")
  validateIndex f.refIndex refBlock (f.header.alignment = 0) walk
  validateIndex f.logIndex logBlock false walk
  validateIndex f.objectIndex objectBlock false walk
  pure (⟨f.header.format, f.header.min, f.header.max, walk.references, walk.logs⟩,
    walk.records, walk.decodedBytes)

def decode (zlib : Zlib) (crc32 : Bytes → UInt32) (bytes : Bytes) (limits : Limits) :
    Except Error Table := do
  let (table, _, _) ← decodeUsage zlib crc32 bytes limits
  pure table

/-- Encodes a table in canonical key order; the complete result is decoded before it is
returned. -/
def encode (zlib : Zlib) (crc32 : Bytes → UInt32) (table : Table) (limits : Limits) :
    Except Error Bytes := do
  let bytes ← table.layout zlib crc32 limits
  let _ ← decode zlib crc32 bytes limits
  pure bytes

end Table

end Girt.Refs.Reftable
