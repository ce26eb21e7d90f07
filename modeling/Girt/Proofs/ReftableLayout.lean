import Girt.Proofs.ReftableReads

/-!
# Blocks of a table

What scanning one encoded block adds to a table, and the blocks a section is laid out in.
-/

namespace Girt.Proofs

open ByteLib Girt.Refs Girt.Refs.Reftable List

variable {hdr : Header} {table : Table}

/-- The records an entry of a block contributes to the table. -/
structure Yield where
  references : List RefRecord
  logs : List LogRecord

namespace Yield

variable (ys : List Yield)

def none : Yield := ⟨[], []⟩

def append (y z : Yield) : Yield := ⟨y.references ++ z.references, y.logs ++ z.logs⟩

def all : Yield := ys.foldr append none

@[simp] lemma all_nil : all [] = none := rfl

@[simp] lemma all_cons (y : Yield) (ys : List Yield) : all (y :: ys) = y.append (all ys) := rfl

lemma all_append (zs : List Yield) : all (ys ++ zs) = (all ys).append (all zs) := by
  induction ys with
  | nil => simp [append, none]
  | cons y ys ih => simp [ih, append]

end Yield

/-- The scan has added exactly the records of `y`. -/
def Adds (y : Yield) (walk walk' : Walk) : Prop :=
  walk'.references = walk.references ++ y.references ∧ walk'.logs = walk.logs ++ y.logs

lemma Adds.refl (walk : Walk) : Adds Yield.none walk walk := by
  simp [Adds, Yield.none]

lemma Adds.trans {y z : Yield} {w w' w'' : Walk} (h : Adds y w w') (h' : Adds z w' w'') :
    Adds (y.append z) w w'' := by
  simp [Adds, Yield.append, h'.1, h'.2, h.1, h.2]

/-- Decoding one record over `enc` consumes it and adds `y`. -/
def EntryReads (header : Header) (kind : UInt8) (enc : Bytes) (y : Yield) : Prop :=
  ∀ (scan : Scan) (s s' : Progress) (tail : Bytes), scan.kind = kind → scan.frame.header = header →
    s.cursor.rest = enc ++ tail → decodeRecord scan s = .ok s' →
      s'.cursor.rest = tail ∧ s'.cursor.position = s.cursor.position + enc.length ∧
        Adds y s.walk s'.walk

/-- The value after a key reads back: it consumes `body` and adds `y`. -/
def ValueReads (header : Header) (kind : UInt8) (name : Bytes) (valueType : Nat) (body : Bytes)
    (y : Yield) : Prop :=
  ∀ (scan : Scan) (walk : Walk) (links : List Nat) (c : Cursor) (tail : Bytes)
    (r : (Walk × List Nat) × Cursor), scan.kind = kind → scan.frame.header = header →
    c.rest = body ++ tail → decodeValue scan name valueType walk links c = .ok r →
      r.2 = c.advance body.length ∧ Adds y walk r.1.1

lemma tag_toNat {len kind : Nat} (hlen : len < 2 ^ 61) (hkind : kind < 8) :
    (UInt64.ofNat (len <<< 3 ||| kind)).toNat = len * 8 + kind := by
  have hor : len <<< 3 ||| kind = len * 8 + kind := by
    rw [← Nat.shiftLeft_add_eq_or_of_lt (i := 3) hkind, Nat.shiftLeft_eq]
  rw [hor, toNat_ofNat_of_lt (by omega)]

lemma varint_zero : varint (UInt64.ofNat 0) = [0] := by
  decide +kernel

lemma entryReads_key {kind : UInt8} {name : Bytes} {valueType : Nat} {body : Bytes}
    {y : Yield} (hname : name.length < 2 ^ 61) (htype : valueType < 8)
    (hvalu : ValueReads hdr kind name valueType body y) :
    EntryReads hdr kind (key name valueType ++ body) y := by
  intro scan s s' tail hkind hhd hrest hs
  obtain ⟨prefixLen, decoded, total, tagged, suffix, c₁, c₂, c₃, walk, hread⟩ := decodeRecord_eq_ok.mp hs
  have hlen := hread.readPrefix
  have htag := hread.readTagged
  have hsuf := hread.readSuffix
  have hkey := hread.key_eq
  have hval := hread.readValue
  have hwalk := hread.walk_eq
  generalize min (c₂.position + (scan.frame.limits.decodedBytes.toNat - decoded)) usizeMax =
  budget at hsuf
  have hrest₀ : s.cursor.rest = varint (UInt64.ofNat 0) ++
      (varint (UInt64.ofNat (name.length <<< 3 ||| valueType)) ++ (name ++ (body ++ tail))) := by
    rw [hrest, varint_zero]
    simp [key]
  have hr₁ := Reads.length (n := 0) (by norm_num) s.cursor _ _ hrest₀ hlen
  have hrest₁ := rest_advance hrest₀
  cases hr₁
  have hr₂ := Reads.varint _ _ _ _ hrest₁ htag
  have hrest₂ := rest_advance hrest₁
  cases hr₂
  rw [tag_toNat hname htype] at hsuf hval
  have hdiv : (name.length * 8 + valueType) >>> 3 = name.length := by
    omega
  have hmod : (name.length * 8 + valueType) % 8 = valueType := by omega
  rw [hdiv] at hsuf
  rw [hmod] at hval
  rw [← rest_limited _ budget] at hrest₂
  have hr₃ := Reads.take rfl _ _ _ hrest₂ hsuf
  have hrest₃ := rest_advance hrest₂
  cases hr₃
  have hnext : s'.key = name := by simpa using hkey
  rw [hnext] at hval
  obtain ⟨hcur, hadds⟩ := hvalu scan _ _ _ tail _ hkind hhd hrest₃ hval
  dsimp only at hcur
  rw [hwalk, hcur]
  refine ⟨rest_advance hrest₃, ?_, hadds⟩
  simp only [Cursor.advance, Cursor.limited, key, length_append, length_cons, varint_zero,
    length_nil]
  omega

lemma adds_of_reads {α : Type} {p : Parser α} {f : α → Walk × List Nat} {body tail : Bytes} {v : α}
    {c : Cursor} {r : (Walk × List Nat) × Cursor} {y : Yield} {walk : Walk} (hp : Reads p body v)
    (hrest : c.rest = body ++ tail) (h : (p >>= fun a => pure (f a)) c = .ok r)
    (hy : Adds y walk (f v).1) : r.2 = c.advance body.length ∧ Adds y walk r.1.1 := by
  obtain ⟨a, c', ha, h⟩ := Parser.bind_ok.mp h
  cases hp _ _ _ hrest ha
  rw [Parser.pure_eq_ok.mp h]
  exact ⟨rfl, hy⟩

lemma valueReads_ref {rec : RefRecord} {kind : Nat}
    {tgt peeled : Bytes} (hkind : refKind rec = .ok kind)
    (htarg : targetBytes table.format rec.target = .ok tgt)
    (hpee : peeledBytes table.format rec.peeled = .ok peeled)
    (hmin : hdr.min = table.minUpdateIndex) (hform : hdr.format = table.format)
    (hsize : tgt.length < 2 ^ 64) :
    ValueReads hdr refBlock rec.name.bytes kind
      (varint (rec.updateIndex - table.minUpdateIndex) ++ (tgt ++ peeled)) ⟨[rec], []⟩ := by
  intro scan walk links c tail r hscan hhd hrest h
  unfold decodeValue at h
  rw [if_pos hscan, hhd] at h
  obtain ⟨-, -, h⟩ := Parser.bind_lift_eq_ok.mp h
  refine adds_of_reads (reads_decodeRef hkind htarg hpee hmin hform hsize) hrest h ?_
  simp [Adds]

lemma valueReads_log {fmt : ObjectFormat} {rec : LogRecord} {kind : Nat}
    {body : Bytes} (hbody : logBody fmt rec.value = .ok (kind, body))
    (hform : hdr.format = fmt) (hsize : body.length < 2 ^ 64) :
    ValueReads hdr logBlock (logKey rec.name.bytes rec.updateIndex) kind body
      ⟨[], [rec]⟩ := by
  intro scan walk links c tail r hscan hhd hrest h
  unfold decodeValue at h
  rw [if_neg (by rw [hscan]; decide), if_pos hscan, hhd] at h
  obtain ⟨-, -, h⟩ := Parser.bind_lift_eq_ok.mp h
  refine adds_of_reads (reads_decodeLog hbody hform hsize) hrest h ?_
  simp [Adds]

lemma valueReads_index (hdr : Header) (name : Bytes) (pos : UInt64) :
    ValueReads hdr indexBlock name 0 (varint pos) Yield.none := by
  intro scan walk links c tail r hscan hhd hrest h
  unfold decodeValue at h
  rw [if_neg (by rw [hscan]; decide), if_neg (by rw [hscan]; decide), if_pos hscan] at h
  obtain ⟨a, c', ha, h⟩ := Parser.bind_ok.mp h
  cases Reads.varint _ _ _ _ hrest ha
  obtain ⟨-, -, h⟩ := Parser.bind_lift_eq_ok.mp h
  rw [Parser.pure_eq_ok.mp h]
  exact ⟨rfl, Adds.refl walk⟩

lemma entryReads_ref {rec : RefRecord} {ent : Bytes × Bytes}
    (h : encodeRef table rec = .ok ent) (hmin : hdr.min = table.minUpdateIndex)
    (hform : hdr.format = table.format) (hsize : ent.2.length < 2 ^ 61) :
    EntryReads hdr refBlock ent.2 ⟨[rec], []⟩ := by
  obtain ⟨kind, tgt, peeled, hkind, htarg, hpee, -, rfl⟩ := encodeRef_eq_ok h
  simp only [key, length_append, length_cons] at hsize
  rw [append_assoc (varint _)]
  exact entryReads_key (by omega) (refKind_lt hkind)
    (valueReads_ref hkind htarg hpee hmin hform (by omega))

lemma entryReads_log {rec : LogRecord} {ent : Bytes × Bytes}
    (h : encodeLog table rec = .ok ent) (hform : hdr.format = table.format)
    (hsize : ent.2.length < 2 ^ 61) : EntryReads hdr logBlock ent.2 ⟨[], [rec]⟩ := by
  obtain ⟨kind, body, hbody, hkind, rfl⟩ := encodeLog_eq_ok h
  simp only [key, length_append, length_cons] at hsize
  exact entryReads_key (by omega) hkind (valueReads_log hbody hform (by omega))

lemma entryReads_index (hdr : Header) {name : Bytes} {pos : UInt64}
    (hsize : (indexRecord name pos).length < 2 ^ 61) :
    EntryReads hdr indexBlock (indexRecord name pos) Yield.none := by
  simp only [indexRecord, key, length_append, length_cons] at hsize
  exact entryReads_key (by omega) (by omega) (valueReads_index hdr name pos)

lemma decodeRecords_adds {scan : Scan} {ents : List (Bytes × Yield)} {s s' : Progress}
    {tail : Bytes} (hens : ∀ e ∈ ents, EntryReads scan.frame.header scan.kind e.1 e.2)
    (hpos : ∀ e ∈ ents, e.1 ≠ [])
    (hrest : s.cursor.rest = ents.flatMap Prod.fst ++ tail)
    (hend : s.cursor.position + (ents.flatMap Prod.fst).length = scan.block.recordsEnd)
    (h : decodeRecords scan s = .ok s') : Adds (Yield.all (ents.map Prod.snd)) s.walk s'.walk := by
  induction ents generalizing s with
  | nil =>
    rw [decodeRecords, if_neg (by simp at hend; omega)] at h
    cases h
    exact Adds.refl _
  | cons e ents ih =>
    have hlen : 0 < e.1.length := length_pos_of_ne_nil (hpos e (.head _))
    simp only [flatMap_cons, length_append, append_assoc] at hrest hend
    rw [decodeRecords, if_pos (by omega)] at h
    split at h
    · cases h
    rename_i s₁ hs₁
    obtain ⟨hrest₁, hpos₁, hadds⟩ := hens e (.head _) scan s s₁ _ rfl rfl hrest hs₁
    refine hadds.trans (ih (fun x hx => hens x (.tail _ hx))
      (fun x hx => hpos x (.tail _ hx)) hrest₁ ?_ h)
    omega

/-- A block as the writer lays it out, with what each of its entries yields. -/
structure Laid where
  kind : UInt8
  start : Nat
  entries : List (Bytes × Yield)
  restarts : List Nat

namespace Laid

variable (b : Laid) (zlib : Zlib)

def records : Bytes := b.entries.flatMap Prod.fst

def body : Bytes := Writer.blockBody b.records b.restarts

def payload (b : Laid) : Bytes :=
  if b.kind = logBlock then zlib.compress b.body else b.body

def length : Nat := Writer.blockLength b.records b.restarts b.start

def image (b : Laid) : Bytes := b.kind :: (uint24 b.length ++ b.payload zlib)

def yield : Yield := Yield.all (b.entries.map Prod.snd)

structure Fits (b : Laid) : Prop where
  length : b.length ≤ 0xffffff
  restarts : b.restarts.length ≤ 65535

lemma body_length : b.body.length = b.records.length + b.restarts.length * 3 + 2 := by
  have hflat : (b.restarts.flatMap uint24).length = b.restarts.length * 3 := by
    induction b.restarts with
    | nil => rfl
    | cons r rs ih =>
      simp only [flatMap_cons, length_append, uint24, beBytes_length, length_cons] at ih ⊢
      omega
  simp only [body, Writer.blockBody, length_append, hflat, beBytes_length]

lemma image_length (b : Laid) : (b.image zlib).length = 4 + (b.payload zlib).length := by
  simp only [image, uint24, length_cons, length_append, beBytes_length]
  omega

lemma readData_payload {zlib : Zlib} (hz : zlib.Inverts) (b : Laid) {rest data : Bytes}
    {consumed : Nat}
    (h : Block.readData zlib b.kind (b.payload zlib ++ rest) b.body.length = .ok (data, consumed)) :
    data = b.body ∧ consumed = (b.payload zlib).length := by
  unfold Block.readData payload at h
  unfold payload
  by_cases hkind : b.kind = logBlock
  · rw [if_pos hkind, if_pos hkind, hz b.body rest _ (Nat.lt_succ_self _)] at h
    simp only [Bool.true_eq_false, ne_eq, not_true_eq_false, or_self, if_false, Except.ok.injEq,
      Prod.mk.injEq] at h
    rw [if_pos hkind]
    exact ⟨h.1.symm, h.2.symm⟩
  · rw [if_neg hkind, if_neg hkind] at h
    rw [if_neg hkind]
    split at h
    · cases h
    · simp only [take_left, Except.ok.injEq, Prod.mk.injEq] at h
      exact ⟨h.1.symm, h.2.symm⟩

lemma restarts_count {b : Laid} (hb : b.Fits) :
    beNat (b.body.drop (b.body.length - 2)) = b.restarts.length := by
  have hdrop : b.body.drop (b.body.length - 2) = beBytes 2 b.restarts.length := by
    have hlen : b.body.length - 2 = (b.records ++ b.restarts.flatMap uint24).length := by
      simp only [body, Writer.blockBody, length_append, beBytes_length]
      omega
    rw [hlen]
    simp [body, Writer.blockBody]
  rw [hdrop, beNat_beBytes]
  have := hb.restarts
  omega

lemma uint24_cons (n : Nat) : ∃ high middle low, uint24 n = [high, middle, low] :=
  ⟨_, _, _, rfl⟩

/-- Reading a laid out block gives back its body and consumes its image. -/
theorem read_image {zlib : Zlib} (hz : zlib.Inverts) {b : Laid} (hb : b.Fits) {rest : Bytes}
    {lim : Limits} {block : Block}
    (h : Block.read zlib (b.image zlib ++ rest) b.start lim = .ok block) :
    block.data = b.body ∧ block.recordsEnd = b.records.length ∧
      block.consumed = (b.image zlib).length := by
  obtain ⟨high, middle, low, huint⟩ := uint24_cons b.length
  have hval : beNat [high, middle, low] = b.length := by
    rw [← huint, uint24, beNat_beBytes]
    have := hb.length
    omega
  have hshape : b.image zlib ++ rest = b.kind :: high :: middle :: low :: (b.payload zlib ++ rest) := by
    simp [image, huint]
  have hsub : b.length - (b.start + 4) = b.body.length := by
    rw [body_length]
    simp only [length, Writer.blockLength]
    omega
  rw [hshape] at h
  simp only [Block.read, bind_ok, hval, hsub] at h
  obtain ⟨-, -, -, -, ⟨data, consumed⟩, hdata, -, -, -, -, -, -, -, -, h⟩ := h
  obtain ⟨rfl, rfl⟩ := readData_payload hz b hdata
  rw [restarts_count hb] at h
  cases h
  refine ⟨rfl, ?_, (image_length zlib b).symm⟩
  have := body_length b
  dsimp only
  omega

end Laid

end Girt.Proofs
