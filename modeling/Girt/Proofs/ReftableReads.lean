import Girt.Refs.Reftable.Decode

/-!
# Reading back reftable records

Every successful run of a parser over an encoding consumes its bytes and returns the encoded value.
-/

namespace Girt.Proofs

open ByteLib Girt.Refs Girt.Refs.Reftable List

variable {c : Cursor} {table : Table} {record : RefRecord} {format : ObjectFormat} {bytes : Bytes}

variable {α β : Type}
variable {r : UInt64 × Cursor} {ent : Bytes × Bytes}

/-- Every successful run of `p` over `enc` consumes it and returns `v`. -/
def Reads (p : Parser α) (enc : Bytes) (v : α) : Prop :=
  ∀ (c : Cursor) (tail : Bytes) (r : α × Cursor), c.rest = enc ++ tail → p c = .ok r →
    r = (v, c.advance enc.length)

lemma rest_advance {enc tail : Bytes} (h : c.rest = enc ++ tail) :
    (c.advance enc.length).rest = tail := by
  have hdrop : (c.advance enc.length).rest = c.rest.drop enc.length := by
    simp [Cursor.rest, Cursor.advance, drop_drop]
  rw [hdrop, h, drop_left]

lemma rest_limited (c : Cursor) (endLimit : Nat) : (c.limited endLimit).rest = c.rest := rfl

namespace Reads

variable {enc : Bytes}
variable {p : Parser α} {f : α → Parser β} {v : α} {w : β} {x : Except Error α}

lemma pure (v : α) : Reads (pure v) [] v := by
  intro c tail r _ h
  exact Parser.pure_eq_ok.mp h

lemma bind {enc₁ enc₂ : Bytes}
    (hp : Reads p enc₁ v) (hf : Reads (f v) enc₂ w) : Reads (p >>= f) (enc₁ ++ enc₂) w := by
  intro c tail r hrest h
  obtain ⟨a, c', ha, h⟩ := Parser.bind_ok.mp h
  rw [append_assoc] at hrest
  cases hp c _ _ hrest ha
  rw [hf _ tail r (rest_advance hrest) h, Cursor.advance_advance, length_append]

lemma lift (hx : ∀ a, x = .ok a → a = v) : Reads (liftM x) [] v := by
  intro c tail r _ h
  obtain ⟨ha, hc⟩ := Parser.lift_eq_ok.mp h
  exact Prod.ext (hx _ ha) hc

lemma bind_lift
    (hx : ∀ a, x = .ok a → a = v) (hf : Reads (f v) enc w) : Reads (liftM x >>= f) enc w :=
  bind (lift hx) hf

lemma bind_reject {p : Prop} [Decidable p] {e : Error} {f : Unit → Parser β}
    (hf : Reads (f ()) enc w) : Reads (liftM (reject p e) >>= f) enc w :=
  bind_lift (fun _ _ => rfl) hf

lemma bind_get {f : Cursor → Parser β} (hf : ∀ c, Reads (f c) enc w) : Reads (get >>= f) enc w := by
  intro c tail r hrest h
  obtain ⟨a, c', ha, h⟩ := Parser.bind_ok.mp h
  cases Parser.get_eq_ok.mp ha
  exact hf _ _ tail r hrest h

lemma append_nil (h : Reads p (enc ++ []) v) : Reads p enc v := by
  rwa [List.append_nil] at h

lemma take {n : Nat} (hn : enc.length = n) : Reads (Cursor.take n) enc enc := by
  intro c tail r hrest h
  obtain ⟨rfl, -⟩ := Cursor.take_eq_ok h
  rw [hrest, ← hn, take_left]

lemma byte (b : UInt8) : Reads Cursor.byte [b] b := by
  intro c tail r hrest h
  obtain ⟨hcons, hadv, -⟩ := Cursor.byte_eq_ok h
  rw [hrest, singleton_append] at hcons
  exact Prod.ext (cons.inj hcons).1.symm hadv

lemma u64 (n : UInt64) : Reads Cursor.u64 (beBytes 8 n.toNat) n := by
  refine append_nil (bind (take (beBytes_length _ _)) ?_)
  have hn : UInt64.ofNat (beNat (beBytes 8 n.toNat)) = n := by
    rw [beNat_beBytes n.toNat_lt, UInt64.ofNat_toNat]
  rw [hn]
  exact pure n

end Reads

def Consumes (c c' : Cursor) (used : Bytes) : Prop :=
  c.rest = used ++ c'.rest ∧ c' = c.advance used.length

lemma consumes_byte {r : UInt8 × Cursor} (h : Cursor.byte c = .ok r) : Consumes c r.2 [r.1] := by
  obtain ⟨hcons, hadv, -⟩ := Cursor.byte_eq_ok h
  exact ⟨by rw [hcons, hadv]; rfl, hadv⟩

lemma Consumes.trans {c' c'' : Cursor} {used used' : Bytes} (h : Consumes c c' used)
    (h' : Consumes c' c'' used') : Consumes c c'' (used ++ used') := by
  refine ⟨by rw [h.1, h'.1, append_assoc], ?_⟩
  rw [h'.2, h.2, Cursor.advance_advance, length_append]

lemma toNat_ofNat_of_lt {n : Nat} (h : ¬2 ^ 64 ≤ n) : (UInt64.ofNat n).toNat = n := by
  rw [UInt64.toNat_ofNat', Nat.mod_eq_of_lt (by omega)]

lemma varintFrom_eq {val : Nat} (h : Cursor.varintFrom val c = .ok r) :
    readVarintFrom val c.rest = some (r.1.toNat, r.2.rest) ∧ ∃ used, Consumes c r.2 used := by
  fun_induction Cursor.varintFrom val c with
  | case1 | case2 => cases h
  | case3 val c b hb v hover hmore ih =>
    obtain ⟨hread, used, hused⟩ := ih h
    have hbyte := consumes_byte hb
    refine ⟨?_, [b.1] ++ used, hbyte.trans hused⟩
    rw [hbyte.1, singleton_append, readVarintFrom, if_pos hmore]
    exact hread
  | case4 val c b hb v hover hmore =>
    cases h
    have hbyte := consumes_byte hb
    refine ⟨?_, [b.1], hbyte⟩
    rw [hbyte.1, singleton_append, readVarintFrom, if_neg hmore, toNat_ofNat_of_lt hover]

lemma varint_eq (h : Cursor.varint c = .ok r) :
    readOffsetVarint c.rest = some (r.1.toNat, r.2.rest) ∧ ∃ used, Consumes c r.2 used := by
  obtain ⟨b, c', hb, h⟩ := Parser.bind_ok.mp h
  have hbyte := consumes_byte hb
  split at h
  · rename_i hmore
    obtain ⟨hread, used, hused⟩ := varintFrom_eq h
    refine ⟨?_, [b] ++ used, hbyte.trans hused⟩
    rw [hbyte.1, singleton_append, readOffsetVarint, if_pos hmore]
    exact hread
  · rename_i hmore
    cases h
    refine ⟨?_, [b], hbyte⟩
    rw [hbyte.1, singleton_append, readOffsetVarint, if_neg hmore, toNat_ofNat_of_lt (by omega)]

namespace Reads

lemma varint (n : UInt64) : Reads Cursor.varint (Reftable.varint n) n := by
  intro c tail r hrest h
  obtain ⟨hread, used, hused⟩ := varint_eq h
  rw [hrest, Reftable.varint, readOffsetVarint_offsetVarint] at hread
  have hpair := Option.some.inj hread
  have hval : r.1 = n := UInt64.toNat_inj.mp (congrArg Prod.fst hpair).symm
  have htail : r.2.rest = tail := (congrArg Prod.snd hpair).symm
  have hsame : used = Reftable.varint n := by
    have happ := hused.1
    rw [htail, hrest] at happ
    exact (append_cancel_right happ).symm
  exact Prod.ext hval (hsame ▸ hused.2)

lemma length {n : Nat} (hn : n < 2 ^ 64) :
    Reads Cursor.length (Reftable.varint (UInt64.ofNat n)) n := by
  refine append_nil (bind (varint _) ?_)
  rw [toNat_ofNat_of_lt (by omega)]
  exact pure n

lemma string {value : Bytes} (h : value.length < 2 ^ 64) :
    Reads Cursor.string (Reftable.string value) value :=
  bind (length h) (bind_get (fun _ => bind_reject (take rfl)))

lemma id (id : ObjectId) : Reads (Cursor.id id.format) id.bytes id := by
  refine append_nil (bind (take id.width) ?_)
  rw [ObjectId.fromBytes_bytes]
  exact pure id

end Reads

lemma encodeRef_eq_ok
    (h : encodeRef table record = .ok ent) :
    ∃ kind tgt peeled, refKind record = .ok kind ∧ targetBytes table.format record.target = .ok tgt ∧
      peeledBytes table.format record.peeled = .ok peeled ∧
      table.minUpdateIndex ≤ record.updateIndex ∧
      ent = (record.name.bytes, key record.name.bytes kind ++
        (varint (record.updateIndex - table.minUpdateIndex) ++ tgt ++ peeled)) := by
  simp only [encodeRef, bind_ok, reject_ok] at h
  obtain ⟨kind, hkind, -, hrg, tgt, htarg, peeled, hpee, h⟩ := h
  refine ⟨kind, tgt, peeled, hkind, htarg, hpee, UInt64.not_lt.mp hrg, ?_⟩
  cases h
  simp

lemma targetBytes_direct {id : ObjectId} (h : targetBytes format (some (.direct id)) = .ok bytes) :
    id.format = format ∧ bytes = id.bytes := by
  simp only [targetBytes, Reftable.requireFormat, bind_ok, reject_ok] at h
  obtain ⟨-, hform, h⟩ := h
  cases h
  exact ⟨not_not.mp hform, rfl⟩

lemma peeledBytes_some {id : ObjectId} (h : peeledBytes format (some id) = .ok bytes) :
    id.format = format ∧ bytes = id.bytes := by
  simp only [peeledBytes, Reftable.requireFormat, bind_ok, reject_ok] at h
  obtain ⟨-, hform, h⟩ := h
  cases h
  exact ⟨not_not.mp hform, rfl⟩

/-- A reference record is read back from the bytes that follow its key. -/
theorem reads_decodeRef {hdr : Header} {kind : Nat}
    {tgt peeled : Bytes} (hkind : refKind record = .ok kind)
    (htarg : targetBytes table.format record.target = .ok tgt)
    (hpee : peeledBytes table.format record.peeled = .ok peeled)
    (hmin : hdr.min = table.minUpdateIndex) (hform : hdr.format = table.format)
    (hsize : tgt.length < 2 ^ 64) :
    Reads (decodeRef record.name.bytes kind hdr)
      (varint (record.updateIndex - table.minUpdateIndex) ++ (tgt ++ peeled)) record := by
  have hname : ∀ a, RecordName.new record.name.bytes = .ok a → a = record.name := by
    intro a ha
    exact RecordName.ext (RecordName.new_eq_ok.mp ha)
  have hidx : hdr.min + (record.updateIndex - table.minUpdateIndex) = record.updateIndex := by
    rw [hmin, UInt64.add_comm, UInt64.sub_add_cancel]
  refine Reads.bind_lift hname (Reads.bind (Reads.varint _) (Reads.bind_reject ?_))
  rw [hidx]
  refine Reads.bind_reject ?_
  obtain ⟨name, idx, tgt', peeled'⟩ := record
  rcases tgt' with _ | id | tgt'
  · rcases peeled' with _ | peeled'
    · cases hkind
      cases htarg
      cases hpee
      exact Reads.pure _
    · cases hkind
  · obtain ⟨hid, rfl⟩ := targetBytes_direct htarg
    rw [← hid] at hform
    rcases peeled' with _ | peeled'
    · cases hkind
      cases hpee
      rw [hform]
      exact Reads.bind (Reads.id id) (Reads.pure _)
    · cases hkind
      obtain ⟨hpeel, rfl⟩ := peeledBytes_some hpee
      rw [hform]
      refine Reads.bind (Reads.id id) ?_
      rw [hid, ← hpeel]
      exact Reads.append_nil (Reads.bind (Reads.id peeled') (Reads.pure _))
  · rcases peeled' with _ | peeled'
    · cases hkind
      cases htarg
      cases hpee
      have hlen : tgt'.bytes.length < 2 ^ 64 := by
        simp only [string, length_append] at hsize
        omega
      refine Reads.bind (Reads.string hlen) ?_
      rw [RefName.new_bytes]
      exact Reads.pure _
    · cases hkind

lemma splitLogKey_logKey (name : Bytes) (upd : UInt64) :
    splitLogKey (logKey name upd) = .ok (name, upd) := by
  have hlen : (logKey name upd).length = name.length + 1 + 8 := by
    simp [logKey]
  have htake : (logKey name upd).take (name.length + 1) = name ++ [0] := by
    have happ : logKey name upd = (name ++ [0]) ++ beBytes 8 (~~~upd).toNat := by
      simp [logKey]
    rw [happ, take_left' (by simp)]
  have hdrop : (logKey name upd).drop (name.length + 1) = beBytes 8 (~~~upd).toNat := by
    have happ : logKey name upd = (name ++ [0]) ++ beBytes 8 (~~~upd).toNat := by
      simp [logKey]
    rw [happ, drop_left' (by simp)]
  have hsub : (logKey name upd).length - 8 = name.length + 1 := by omega
  unfold splitLogKey
  rw [if_neg (by omega)]
  rw [hsub, htake, hdrop, beNat_beBytes (UInt64.toNat_lt _), UInt64.ofNat_toNat, UInt64.not_not]
  simp

lemma logValueBytes_eq_ok {val : LogValue} (h : logValueBytes format val = .ok bytes) :
    ∃ off, Timezone.encode val.offsetMinutes = .ok off ∧ val.old.format = format ∧
      val.new.format = format ∧
      bytes = val.old.bytes ++ (val.new.bytes ++ (string val.name ++ (string val.email ++
        (varint val.seconds ++ (off ++ string val.message))))) := by
  simp only [logValueBytes, Reftable.requireFormat, bind_ok, reject_ok, not_not] at h
  obtain ⟨-, hold, -, hnew, off, hoff, h⟩ := h
  cases h
  exact ⟨off, hoff, hold, hnew, by simp only [append_assoc]⟩

lemma reads_decodeLogValue {value : LogValue} (h : logValueBytes format value = .ok bytes)
    (hsize : bytes.length < 2 ^ 64) : Reads (decodeLogValue format) bytes value := by
  obtain ⟨offset, hoff, hold, hnew, rfl⟩ := logValueBytes_eq_ok h
  obtain ⟨hmin, hlen⟩ := Timezone.decode_encode hoff
  simp only [length_append, string] at hsize
  unfold decodeLogValue
  nth_rewrite 1 [← hold]
  refine Reads.bind (Reads.id value.old) ?_
  rw [← hnew]
  refine Reads.bind (Reads.id value.new) ?_
  refine Reads.bind (Reads.string (by omega)) (Reads.bind (Reads.string (by omega)) ?_)
  refine Reads.bind (Reads.varint _) (Reads.bind (Reads.take hlen) ?_)
  refine Reads.append_nil (Reads.bind (Reads.string (by omega)) ?_)
  rw [hmin]
  exact Reads.pure value

/-- The bytes a log record has after its key, with its value type. -/
def logBody (format : ObjectFormat) : Option LogValue → Except Error (Nat × Bytes)
  | none => .ok (0, [])
  | some value => do
    let bytes ← logValueBytes format value
    .ok (1, bytes)

lemma encodeLog_eq_ok {record : LogRecord}
    (h : encodeLog table record = .ok ent) :
    ∃ kind body, logBody table.format record.value = .ok (kind, body) ∧ kind < 8 ∧
      ent = (logKey record.name.bytes record.updateIndex,
        key (logKey record.name.bytes record.updateIndex) kind ++ body) := by
  unfold encodeLog at h
  cases hval : record.value with
  | none =>
    rw [hval] at h
    cases h
    exact ⟨0, [], rfl, by omega, by simp⟩
  | some val =>
    rw [hval] at h
    obtain ⟨bytes, hbs, h⟩ := bind_ok.mp h
    cases h
    simp [logBody, hbs, bind, Except.bind]

/-- A log record is read back from the bytes that follow its key. -/
theorem reads_decodeLog {record : LogRecord} {hdr : Header} {kind : Nat}
    {body : Bytes} (hbody : logBody format record.value = .ok (kind, body))
    (hform : hdr.format = format) (hsize : body.length < 2 ^ 64) :
    Reads (decodeLog (logKey record.name.bytes record.updateIndex) kind hdr) body record := by
  have hkey : ∀ a, splitLogKey (logKey record.name.bytes record.updateIndex) = .ok a →
      a = (record.name.bytes, record.updateIndex) := by
    intro a ha
    rw [splitLogKey_logKey] at ha
    cases ha
    rfl
  have hname : ∀ a, RecordName.new record.name.bytes = .ok a → a = record.name := by
    intro a ha
    exact RecordName.ext (RecordName.new_eq_ok.mp ha)
  refine Reads.bind_lift hkey (Reads.bind_lift hname (Reads.bind_reject ?_))
  obtain ⟨name, idx, val⟩ := record
  rcases val with _ | val
  · cases hbody
    exact Reads.pure _
  obtain ⟨bytes, hbs, hbody⟩ := bind_ok.mp hbody
  cases hbody
  rw [hform]
  exact Reads.append_nil (Reads.bind (reads_decodeLogValue hbs hsize) (Reads.pure _))

lemma refKind_lt {kind : Nat} (h : refKind record = .ok kind) : kind < 8 := by
  unfold refKind at h
  split at h <;> cases h <;> omega

end Girt.Proofs
