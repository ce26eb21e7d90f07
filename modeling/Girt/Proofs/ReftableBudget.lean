import Girt.Proofs.ReftableReads

/-!
# Decoding under a smaller budget

A decoded table is decoded alike under every budget that covers what it took.
-/

namespace Girt.Proofs
open ByteLib Girt.Refs Girt.Refs.Reftable List
open ByteLib (bind_ok)
open Cursor (advance byte_eq_ok fits new take_steady u64 varintFrom)

/-- Budgets that differ only in what the tables of a stack share. -/
structure SameShape (limits limits' : Limits) : Prop where
  blockBytes : limits'.blockBytes = limits.blockBytes
  stringBytes : limits'.stringBytes = limits.stringBytes

section Varint

lemma varintFrom_cost {val : Nat} {c : Cursor} {r : UInt64 × Cursor}
    (h : varintFrom val c = .ok r) : ∃ n, r.2 = c.advance n ∧ 128 * n * (val + 1) ≤ r.1.toNat := by
  fun_induction varintFrom val c with
  | case1 | case2 => cases h
  | case3 val c b hb v hover hmore ih =>
    obtain ⟨n, hn, hcost⟩ := ih h
    refine ⟨1 + n, by rw [hn, (byte_eq_ok hb).2.1, Cursor.advance_advance], ?_⟩
    have hpos : 1 ≤ n := by
      have hlt := Cursor.varintFrom_lt h
      rw [hn] at hlt
      simp only [advance] at hlt
      omega
    calc 128 * (1 + n) * (val + 1) ≤ 128 * (n * 128) * (val + 1) := by
          apply Nat.mul_le_mul_right
          omega
      _ = 128 * n * ((val + 1) * 128) := by ring
      _ ≤ 128 * n * (v + 1) := by
          apply Nat.mul_le_mul_left
          omega
      _ ≤ r.1.toNat := hcost
  | case4 val c b hb v hover hlast =>
    cases h
    refine ⟨1, (byte_eq_ok hb).2.1, ?_⟩
    rw [toNat_ofNat_of_lt hover]
    omega

lemma varint_cost {c : Cursor} {r : UInt64 × Cursor} (h : Cursor.varint c = .ok r) :
    ∃ n, r.2 = c.advance n ∧ 128 * n ≤ r.1.toNat + 128 := by
  obtain ⟨b, c', hb, h⟩ := Parser.bind_ok.mp h
  have hstep : c' = c.advance 1 := (byte_eq_ok hb).2.1
  split at h
  · obtain ⟨n, hn, hcost⟩ := varintFrom_cost h
    refine ⟨1 + n, by rw [hn, hstep, Cursor.advance_advance], ?_⟩
    have hfirst : 128 * n ≤ 128 * n * (b.toNat % 128 + 1) := Nat.le_mul_of_pos_right _ (by omega)
    omega
  · cases h
    exact ⟨1, hstep, by omega⟩

lemma length_cost {c : Cursor} {r : Nat × Cursor} (h : Cursor.length c = .ok r) :
    ∃ n, r.2 = c.advance n ∧ 128 * n ≤ r.1 + 128 := by
  obtain ⟨v, c', hv, h⟩ := Parser.bind_ok.mp h
  rw [Parser.pure_eq_ok.mp h]
  exact varint_cost hv

end Varint

section Value

variable {scan : Scan} {key : Bytes} {vty : Nat} {walk walk' : Walk} {links links' : List Nat}
  {c c' : Cursor}

lemma decodeValue_eq_ok (h : decodeValue scan key vty walk links c = .ok ((walk', links'), c')) :
    (∃ rec, ¬ (walk.lastRef ≠ [] ∧ key ≤ walk.lastRef) ∧
      decodeRef key vty scan.frame.header c = .ok (rec, c') ∧
      walk' = { walk with references := walk.references ++ [rec], lastRef := key }) ∨
    (∃ rec, ¬ (walk.lastLog ≠ [] ∧ key ≤ walk.lastLog) ∧
      decodeLog key vty scan.frame.header c = .ok (rec, c') ∧
      walk' = { walk with logs := walk.logs ++ [rec], lastLog := key }) ∨
    (∃ tgt, checkIndexTarget scan walk key vty tgt = .ok () ∧ walk' = walk) ∨
    (decodeObject scan walk key vty c = .ok ((), c') ∧ walk' = walk) := by
  unfold decodeValue at h
  split_ifs at h
  · simp only [Parser.bind_ok, Parser.lift_eq_ok, Parser.pure_eq_ok, reject_ok] at h
    obtain ⟨-, _, ⟨hord, rfl⟩, rec, c₁, hrec, heq⟩ := h
    cases heq
    exact Or.inl ⟨rec, hord, hrec, rfl⟩
  · simp only [Parser.bind_ok, Parser.lift_eq_ok, Parser.pure_eq_ok, reject_ok] at h
    obtain ⟨-, _, ⟨hord, rfl⟩, rec, c₁, hrec, heq⟩ := h
    cases heq
    exact Or.inr (Or.inl ⟨rec, hord, hrec, rfl⟩)
  · simp only [Parser.bind_ok, Parser.pure_eq_ok, Parser.lift_eq_ok] at h
    obtain ⟨tgt, c₁, -, _, c₂, ⟨htest, -⟩, heq⟩ := h
    cases heq
    exact Or.inr (Or.inr (Or.inl ⟨tgt.toNat, htest, rfl⟩))
  · simp only [Parser.bind_ok, Parser.pure_eq_ok] at h
    obtain ⟨_, c₁, hobj, heq⟩ := h
    cases heq
    exact Or.inr (Or.inr (Or.inr ⟨hobj, rfl⟩))
  · exact (Parser.throw_ne_ok.mp h).elim

lemma decodeRef_name {hdr : Header} {rec : RefRecord}
    (h : decodeRef key vty hdr c = .ok (rec, c')) :
    rec.name.bytes = key ∧ rec.updateIndex ≤ hdr.max := by
  simp only [decodeRef, Parser.bind_ok, Parser.lift_eq_ok, reject_ok] at h
  obtain ⟨name, _, ⟨hname, rfl⟩, delta, c₁, -, -, _, -, -, _, ⟨hmax, rfl⟩, h⟩ := h
  have hbs := RecordName.new_eq_ok.mp hname
  have hrg : hdr.min + delta ≤ hdr.max := not_lt.mp hmax
  split at h
  · cases Parser.pure_eq_ok.mp h
    exact ⟨hbs, hrg⟩
  · obtain ⟨id, c₂, -, h⟩ := Parser.bind_ok.mp h
    cases Parser.pure_eq_ok.mp h
    exact ⟨hbs, hrg⟩
  · obtain ⟨id, c₂, -, h⟩ := Parser.bind_ok.mp h
    obtain ⟨peeled, c₃, -, h⟩ := Parser.bind_ok.mp h
    cases Parser.pure_eq_ok.mp h
    exact ⟨hbs, hrg⟩
  · obtain ⟨bytes, c₂, -, h⟩ := Parser.bind_ok.mp h
    cases htarg : RefName.new bytes with
    | none =>
      rw [htarg] at h
      exact (Parser.throw_ne_ok.mp h).elim
    | some tgt =>
      rw [htarg] at h
      cases Parser.pure_eq_ok.mp h
      exact ⟨hbs, hrg⟩
  · exact (Parser.throw_ne_ok.mp h).elim

lemma splitLogKey_eq_ok {name : Bytes} {updateIndex : UInt64}
    (h : splitLogKey key = .ok (name, updateIndex)) : key = logKey name updateIndex := by
  unfold splitLogKey at h
  dsimp only at h
  split_ifs at h with hlen hlast
  cases h
  have hcut : key = key.take (key.length - 8) ++ key.drop (key.length - 8) := (take_append_drop _ _).symm
  have hname : key.take (key.length - 8) = (key.take (key.length - 8)).dropLast ++ [0] := by
    refine (dropLast_append_getLast? 0 ?_).symm
    rw [not_not.mp hlast]
    rfl
  have hidx : beBytes 8 (beNat (key.drop (key.length - 8))) = key.drop (key.length - 8) := by
    refine beBytes_beNat ?_
    rw [length_drop]
    omega
  have hlt : beNat (key.drop (key.length - 8)) < 2 ^ 64 := by
    have hbd := beNat_lt (key.drop (key.length - 8))
    have hlen8 : (key.drop (key.length - 8)).length = 8 := by
      rw [length_drop]
      omega
    rw [hlen8] at hbd
    exact hbd
  unfold logKey
  rw [UInt64.not_not, toNat_ofNat_of_lt (not_le.mpr hlt), hidx, ← singleton_append, ← append_assoc,
    ← hname]
  exact hcut

lemma decodeLog_name {hdr : Header} {rec : LogRecord}
    (h : decodeLog key vty hdr c = .ok (rec, c')) :
    logKey rec.name.bytes rec.updateIndex = key ∧ rec.updateIndex ≤ hdr.max := by
  simp only [decodeLog, Parser.bind_ok, Parser.lift_eq_ok, reject_ok] at h
  obtain ⟨⟨bytes, upd⟩, _, ⟨hcut, rfl⟩, name, _, ⟨hname, rfl⟩, -, _, ⟨hmax, rfl⟩, h⟩ := h
  have hbs : name.bytes = bytes := RecordName.new_eq_ok.mp hname
  have hkey : logKey name.bytes upd = key := by rw [hbs, ← splitLogKey_eq_ok hcut]
  have hrg : upd ≤ hdr.max := not_lt.mp hmax
  split at h
  · cases Parser.pure_eq_ok.mp h
    exact ⟨hkey, hrg⟩
  · obtain ⟨val, c₂, -, h⟩ := Parser.bind_ok.mp h
    cases Parser.pure_eq_ok.mp h
    exact ⟨hkey, hrg⟩
  · exact (Parser.throw_ne_ok.mp h).elim

end Value

section Walk

lemma recordName_ne_nil (name : RecordName) : name.bytes ≠ [] := by
  intro h
  have hvd := name.valid
  rw [h] at hvd
  revert hvd
  decide

/-- Collected records: their keys increase up to the last one, and no update index exceeds a bound. -/
structure Ordered {γ : Type} (keyOf : γ → Bytes) (updateOf : γ → UInt64) (max : UInt64) (l : List γ) (last : Bytes) :
    Prop where
  increasing : l.Pairwise (keyOf · < keyOf ·)
  last : ∀ r ∈ l, keyOf r ≤ last ∧ updateOf r ≤ max

/-- What holds of the records collected so far: keys increase, no update index exceeds the
table's, and no block ends with the empty key. -/
structure Sound (header : Header) (walk : Walk) : Prop where
  references : Ordered (·.name.bytes) (·.updateIndex) header.max walk.references walk.lastRef
  logs : Ordered (fun r => logKey r.name.bytes r.updateIndex) (·.updateIndex) header.max walk.logs walk.lastLog
  keys : ∀ pos kind key, walk.blocks.get pos = some (kind, key) → key ≠ []

lemma sound_empty (hdr : Header) : Sound hdr Walk.empty :=
  ⟨⟨.nil, by simp [Walk.empty]⟩, ⟨.nil, by simp [Walk.empty]⟩, by simp [Walk.empty]⟩

variable {scan : Scan} {key : Bytes} {vty : Nat} {walk walk' : Walk} {links links' : List Nat}
  {c c' : Cursor}

lemma Ordered.concat {γ : Type} {keyOf : γ → Bytes} {updateOf : γ → UInt64} {max : UInt64}
    {l : List γ} {last : Bytes} {a : γ} (h : Ordered keyOf updateOf max l last)
    (hne : ∀ b, keyOf b ≠ []) (hord : ¬ (last ≠ [] ∧ key ≤ last)) (hkey : keyOf a = key)
    (hmax : updateOf a ≤ max) : Ordered keyOf updateOf max (l ++ [a]) key := by
  have hlt : ∀ b ∈ l, keyOf b < key := by
    intro b hb
    have hle := (h.last b hb).1
    by_contra hnot
    refine hord ⟨?_, (not_lt.mp hnot).trans hle⟩
    rintro rfl
    exact hne b (le_antisymm hle (le_of_isPrefix nil_prefix))
  refine ⟨pairwise_append.mpr ⟨h.increasing, pairwise_singleton _ _, fun b hb a' ha' => ?_⟩, ?_⟩
  · rw [mem_singleton.mp ha', hkey]
    exact hlt b hb
  · rw [forall_mem_append, forall_mem_singleton]
    exact ⟨fun b hb => ⟨(hlt b hb).le, (h.last b hb).2⟩, hkey.le, hmax⟩

lemma logKey_ne_nil (name : Bytes) (upd : UInt64) : logKey name upd ≠ [] := by
  simp [logKey]

lemma decodeValue_sound (hs : Sound scan.frame.header walk)
    (h : decodeValue scan key vty walk links c = .ok ((walk', links'), c')) :
    Sound scan.frame.header walk' := by
  rcases decodeValue_eq_ok h with ⟨rec, hord, hrec, rfl⟩ | ⟨rec, hord, hrec, rfl⟩ |
    ⟨-, -, rfl⟩ | ⟨-, rfl⟩
  · obtain ⟨hname, hmax⟩ := decodeRef_name hrec
    exact ⟨hs.references.concat (recordName_ne_nil ·.name) hord hname hmax, hs.logs, hs.keys⟩
  · obtain ⟨hname, hmax⟩ := decodeLog_name hrec
    exact ⟨hs.references, hs.logs.concat (fun _ => logKey_ne_nil _ _) hord hname hmax, hs.keys⟩
  · exact hs
  · exact hs

lemma decodeValue_key (hs : Sound scan.frame.header walk)
    (h : decodeValue scan key vty walk links c = .ok ((walk', links'), c')) : key ≠ [] := by
  rcases decodeValue_eq_ok h with ⟨rec, -, hrec, -⟩ | ⟨rec, -, hrec, -⟩ |
    ⟨tgt, htest, -⟩ | ⟨hobj, -⟩
  · rw [← (decodeRef_name hrec).1]
    exact recordName_ne_nil _
  · rw [← (decodeLog_name hrec).1]
    exact logKey_ne_nil _ _
  · unfold checkIndexTarget at htest
    split at htest
    · cases htest
    rename_i kind targetKey hget
    split_ifs at htest with hbad
    simp only [not_or, not_not] at hbad
    rw [← hbad.2.2]
    exact hs.keys _ _ _ hget
  · simp only [decodeObject, Parser.bind_lift_eq_ok, reject_ok, not_or] at hobj
    obtain ⟨-, ⟨-, hlen⟩, -⟩ := hobj
    rintro rfl
    simp at hlen

lemma decodeValue_frame (h : decodeValue scan key vty walk links c = .ok ((walk', links'), c')) :
    walk'.records = walk.records ∧ walk'.decodedBytes = walk.decodedBytes ∧
      walk'.blocks = walk.blocks := by
  rcases decodeValue_eq_ok h with ⟨rec, -, -, rfl⟩ | ⟨rec, -, -, rfl⟩ | ⟨-, -, rfl⟩ | ⟨-, rfl⟩ <;>
    exact ⟨rfl, rfl, rfl⟩

end Walk

section Record

variable {scan : Scan} {s s' : Progress} {limits : Limits}

lemma charge_eq_ok {limits : Limits} {dec more total : Nat} :
    charge limits dec more = .ok total ↔
      dec + more ≤ usizeMax ∧ dec + more ≤ limits.decodedBytes.toNat ∧ total = dec + more := by
  unfold charge
  split_ifs with h1 h2
  · simp [not_le.mpr h1]
  · simp [not_le.mpr h2]
  · simp only [Except.ok.injEq, not_lt.mp h1, not_lt.mp h2, true_and]
    exact eq_comm

structure Grows (walk walk' : Walk) : Prop where
  records : walk.records ≤ walk'.records
  decodedBytes : walk.decodedBytes ≤ walk'.decodedBytes

lemma Grows.trans {a b c : Walk} (h₁ : Grows a b) (h₂ : Grows b c) : Grows a c :=
  ⟨h₁.records.trans h₂.records, h₁.decodedBytes.trans h₂.decodedBytes⟩

lemma Sound.count {hdr : Header} {walk : Walk} (hs : Sound hdr walk) (records : Nat) :
    Sound hdr { walk with records } :=
  ⟨hs.references, hs.logs, hs.keys⟩

lemma decodeRecord_sound (hs : Sound scan.frame.header s.walk) (h : decodeRecord scan s = .ok s') :
    Sound scan.frame.header s'.walk ∧ s'.key ≠ [] ∧ Grows s.walk s'.walk := by
  obtain ⟨plen, dec, total, tagged, suf, c₁, c₂, c₃, walk, hread⟩ := decodeRecord_eq_ok.mp h
  have hsound := decodeValue_sound (hs.count _) hread.readValue
  obtain ⟨hrecs, -, -⟩ := decodeValue_frame hread.readValue
  obtain ⟨-, -, hdec⟩ := charge_eq_ok.mp hread.chargeKey
  obtain ⟨-, -, htot⟩ := charge_eq_ok.mp hread.chargeValue
  rw [hread.walk_eq]
  refine ⟨⟨hsound.references, hsound.logs, hsound.keys⟩,
    decodeValue_key (hs.count _) hread.readValue, ?_, ?_⟩
  · rw [hrecs]
    exact Nat.le_succ _
  · change s.walk.decodedBytes ≤ total
    omega

def Scan.under (scan : Scan) (limits : Limits) : Scan :=
  { scan with frame := { scan.frame with limits } }

def Progress.under (s : Progress) (limits : Limits) (endLimit : Nat) : Progress :=
  { s with cursor := s.cursor.under limits endLimit }

/-- The end limit leaves room for all that the budget still allows. -/
def Roomy (limits : Limits) (s : Progress) (endLimit : Nat) : Prop :=
  ∀ n, s.walk.decodedBytes + n ≤ limits.decodedBytes.toNat → s.cursor.fits n → s.cursor.position + n ≤ endLimit

lemma suffix_ne_nil {key suf : Bytes} {plen : Nat}
    (hord : ¬ (key ≠ [] ∧ key.take plen ++ suf ≤ key)) (hne : key.take plen ++ suf ≠ []) :
    suf ≠ [] := by
  rintro rfl
  rw [append_nil] at hord hne
  have hkey : key ≠ [] := by
    rintro rfl
    simp at hne
  exact hord ⟨hkey, le_of_isPrefix (List.take_prefix _ _)⟩

lemma header_cost {plen suffixLen n₁ n₂ vty : Nat} (hsuf : 1 ≤ suffixLen) (htype : vty < 8)
    (h₁ : 128 * n₁ ≤ plen + 128) (h₂ : 128 * n₂ ≤ suffixLen * 8 + vty + 128) :
    n₁ + n₂ ≤ plen + suffixLen + suffixLen := by
  omega

lemma decodeRecord_relimit (hshape : SameShape scan.frame.limits limits) (hs : Sound scan.frame.header s.walk)
    (hlim : s.cursor.limits = scan.frame.limits) (h : decodeRecord scan s = .ok s')
    (hrecs : s'.walk.records ≤ limits.records.toNat)
    (hdec : s'.walk.decodedBytes ≤ limits.decodedBytes.toNat) {endLimit : Nat}
    (hroom : Roomy limits s endLimit) :
    ∃ endLimit', decodeRecord (Scan.under scan limits) (Progress.under s limits endLimit) =
        .ok (Progress.under s' limits endLimit') ∧
      Roomy limits s' endLimit' ∧ s'.cursor.limits = scan.frame.limits := by
  obtain ⟨plen, dec, total, tagged, suffix, c₁, c₂, c₃, walk, hread⟩ := decodeRecord_eq_ok.mp h
  obtain ⟨hcost, -, rfl⟩ := charge_eq_ok.mp hread.chargeKey
  obtain ⟨htot, -, rfl⟩ := charge_eq_ok.mp hread.chargeValue
  obtain ⟨n₁, hc₁, hcost₁⟩ := length_cost hread.readPrefix
  obtain ⟨n₂, hc₂, hcost₂⟩ := varint_cost hread.readTagged
  obtain ⟨heq, hfits₃⟩ := Cursor.take_eq_ok hread.readSuffix
  obtain ⟨hsuf, hc₃⟩ := Prod.mk.inj heq
  have hste := decodeValue_steady scan s'.key (tagged.toNat % 8)
    { s.walk with records := s.walk.records + 1 } s.links
  obtain ⟨n₄, hc₄, hfits₄⟩ := hste.moves hread.readValue
  dsimp only at hc₁ hc₂ hc₃ hc₄ hcost₁ hcost₂
  subst hc₁ hc₂ hc₃
  rw [hread.walk_eq] at hrecs hdec
  dsimp only at hrecs hdec
  rw [hc₄] at hdec htot
  simp only [advance, Cursor.limited, fits] at hfits₃ hfits₄ hdec htot
  have hsuffix : 1 ≤ tagged.toNat >>> 3 := by
    have hne : suffix ≠ [] := by
      have hkey := decodeValue_key (hs.count _) hread.readValue
      have hord := hread.keyOrder
      rw [hread.key_eq] at hkey hord
      exact suffix_ne_nil hord hkey
    rw [hsuf] at hne
    by_contra hzero
    exact hne (by rw [Nat.lt_one_iff.mp (not_le.mp hzero), take_zero])
  have hhd : n₁ + n₂ ≤ plen + tagged.toNat >>> 3 + tagged.toNat >>> 3 := by
    have htag : tagged.toNat = tagged.toNat >>> 3 * 8 + tagged.toNat % 8 := by
      rw [Nat.shiftRight_eq_div_pow]
      omega
    refine header_cost hsuffix (Nat.mod_lt tagged.toNat (by decide : 0 < 8)) hcost₁ ?_
    rw [← htag]
    exact hcost₂
  have hend : s.cursor.position + (n₁ + n₂) ≤ endLimit := by
    refine hroom _ ?_ ⟨?_, ?_⟩ <;> omega
  have hstring : limits.stringBytes = s.cursor.limits.stringBytes := by rw [hlim, hshape.stringBytes]
  obtain ⟨hnum, -, -⟩ := decodeValue_frame hread.readValue
  let endLimit' := min (s.cursor.position + n₁ + n₂ + (limits.decodedBytes.toNat -
    (s.walk.decodedBytes + (plen + tagged.toNat >>> 3)))) usizeMax
  have hend₃ : s.cursor.position + n₁ + n₂ + tagged.toNat >>> 3 ≤ endLimit' := by
    simp only [endLimit']
    omega
  have hpos : s'.cursor.position = s.cursor.position + n₁ + n₂ + tagged.toNat >>> 3 + n₄ := by
    rw [hc₄]
    rfl
  have hend₄ : s'.cursor.position ≤ endLimit' := by
    simp only [hpos, endLimit']
    omega
  have hread' : RecordRead (Scan.under scan limits) (Progress.under s limits endLimit)
      (Progress.under s' limits endLimit') plen _ _ tagged suffix _ _ _ walk := {
    count := by
      rw [hnum] at hrecs
      exact hrecs
    readPrefix := Cursor.length_steady.relimit hread.readPrefix hstring (by
      simp only [advance]
      omega)
    readRestart := hread.readRestart
    readTagged := Cursor.varint_steady.relimit hread.readTagged hstring (by
      simp only [advance]
      omega)
    keyFits := by
      have hfits := hread.keyFits
      rw [← hshape.stringBytes] at hfits
      exact hfits
    chargeKey := charge_eq_ok.mpr ⟨hcost, by
      change _ ≤ limits.decodedBytes.toNat
      change s.walk.decodedBytes + _ ≤ _
      omega, rfl⟩
    readSuffix := (take_steady _).relimit hread.readSuffix hstring hend₃
    key_eq := hread.key_eq
    keyOrder := hread.keyOrder
    readValue := hste.relimit hread.readValue hstring hend₄
    chargeValue := by
      rw [charge_eq_ok, show (Progress.under s' limits endLimit').cursor.position = s'.cursor.position from rfl,
        hpos]
      exact ⟨htot, hdec, rfl⟩
    walk_eq := by
      rw [show (Progress.under s' limits endLimit').walk = s'.walk from rfl, hread.walk_eq, hpos]
      rfl }
  refine ⟨endLimit', decodeRecord_eq_ok.mpr ⟨_, _, _, _, _, _, _, _, _, hread'⟩, ?_, ?_⟩
  · intro n hn hfits
    rw [hread.walk_eq] at hn
    dsimp only [fits] at hn hfits
    simp only [hpos, endLimit', advance] at hn hfits ⊢
    omega
  · rw [hc₄]
    exact hlim

lemma decodeRecords_sound (hs : Sound scan.frame.header s.walk) (hkey : s.restart ≠ 0 → s.key ≠ [])
    (h : decodeRecords scan s = .ok s') :
    Sound scan.frame.header s'.walk ∧ (s'.restart ≠ 0 → s'.key ≠ []) ∧ Grows s.walk s'.walk := by
  fun_induction decodeRecords scan s with
  | case1 s hmore e hrec => cases h
  | case2 s hmore next hrec ih =>
    obtain ⟨hsound, hne, hgro⟩ := decodeRecord_sound hs hrec
    obtain ⟨hsound', hkey', hgro'⟩ := ih hsound (fun _ => hne) h
    exact ⟨hsound', hkey', hgro.trans hgro'⟩
  | case3 s hdone =>
    cases h
    exact ⟨hs, hkey, le_refl _, le_refl _⟩

lemma decodeRecords_of_record {next : Progress} (hmore : s.cursor.position < scan.block.recordsEnd)
    (h : decodeRecord scan s = .ok next) : decodeRecords scan s = decodeRecords scan next := by
  rw [decodeRecords, if_pos hmore]
  split
  · rename_i hrec
    rw [h] at hrec
    cases hrec
  rename_i hrec
  rw [h] at hrec
  cases hrec
  rfl

lemma decodeRecords_relimit (hshape : SameShape scan.frame.limits limits) (hs : Sound scan.frame.header s.walk)
    (hlim : s.cursor.limits = scan.frame.limits) (h : decodeRecords scan s = .ok s')
    (hrecs : s'.walk.records ≤ limits.records.toNat)
    (hdec : s'.walk.decodedBytes ≤ limits.decodedBytes.toNat) {elim : Nat}
    (hroom : Roomy limits s elim) :
    ∃ elim', decodeRecords (Scan.under scan limits) (Progress.under s limits elim) =
      .ok (Progress.under s' limits elim') := by
  fun_induction decodeRecords scan s generalizing elim with
  | case1 s hmore e hrec => cases h
  | case2 s hmore next hrec ih =>
    obtain ⟨hsound, hne, -⟩ := decodeRecord_sound hs hrec
    obtain ⟨-, -, hgro⟩ := decodeRecords_sound hsound (fun _ => hne) h
    obtain ⟨elim', hnext, hroom', hlim'⟩ := decodeRecord_relimit hshape hs hlim hrec
      (hgro.records.trans hrecs) (hgro.decodedBytes.trans hdec) hroom
    have hmore' : (Progress.under s limits elim).cursor.position <
        (Scan.under scan limits).block.recordsEnd :=
      hmore
    rw [decodeRecords_of_record hmore' hnext]
    exact ih hsound hlim' h hroom'
  | case3 s hdone =>
    cases h
    refine ⟨elim, ?_⟩
    rw [decodeRecords]
    exact if_neg hdone

end Record

section Blocks

variable {zlib : Zlib} {f : Frame} {pos : Nat} {kind : UInt8} {walk walk' : Walk} {block : Block}
  {limits : Limits}

lemma read_restarts {bytes : Bytes} {start : Nat}
    (h : Block.read zlib bytes start limits = .ok block) : block.restarts ≠ [] := by
  unfold Block.read at h
  split at h
  · simp only [bind_ok, reject_ok, not_or] at h
    obtain ⟨-, -, -, -, data, -, -, -, -, -, -, -, -, hres, h⟩ := h
    cases h
    intro hnil
    dsimp only at hnil
    rw [hnil] at hres
    exact hres.1 (by simp)
  · cases h

def Frame.under (f : Frame) (limits : Limits) : Frame := { f with limits }

lemma Sound.close {hdr : Header} (hs : Sound hdr walk) {slot : Nat} {key : Bytes} (hkey : key ≠ [])
    (sections : OrdMap Nat UInt8) (links : OrdMap Nat (List Nat)) :
    Sound hdr { walk with
      indexSections := sections, indexLinks := links, blocks := walk.blocks.insert slot (kind, key) } :=
  ⟨hs.references, hs.logs, fun pos kind' key' =>
    OrdMap.forall_insert (P := fun _ entry => entry.2 ≠ [])
    (fun pos entry => hs.keys pos entry.1 entry.2) hkey pos (kind', key')⟩

lemma decodeBlock_sound (hs : Sound f.header walk)
    (h : decodeBlock zlib f pos kind walk = .ok (block, walk')) :
    Sound f.header walk' ∧ Grows walk walk' := by
  simp only [decodeBlock, bind_ok, reject_ok, not_or, not_not] at h
  obtain ⟨-, -, -, -, -, -, b, hblock, s, hrecs, -, ⟨-, hres⟩, h⟩ := h
  cases h
  obtain ⟨hsound, hkey, hgro⟩ := @decodeRecords_sound ⟨f, kind, f.leafKind pos, _, block⟩ _ _ hs
    (absurd rfl ·) hrecs
  have hne : s.key ≠ [] := by
    apply hkey
    rw [hres]
    exact fun hzero => read_restarts hblock (length_eq_zero_iff.mp hzero)
  split <;> exact ⟨hsound.close hne _ _, hgro.records, hgro.decodedBytes⟩

lemma decodeBlock_relimit (hshape : SameShape f.limits limits) (hs : Sound f.header walk)
    (h : decodeBlock zlib f pos kind walk = .ok (block, walk'))
    (hrecs : walk'.records ≤ limits.records.toNat)
    (hdec : walk'.decodedBytes ≤ limits.decodedBytes.toNat) :
    decodeBlock zlib (Frame.under f limits) pos kind walk = .ok (block, walk') := by
  simp only [decodeBlock, bind_ok, reject_ok] at h ⊢
  obtain ⟨-, hkind, -, hhd, -, hali, b, hblock, s, hrun, -, hend, h⟩ := h
  cases h
  simp only [apply_ite Walk.records, apply_ite Walk.decodedBytes, ite_self] at hrecs hdec
  have hroom : Roomy limits ⟨new block.data f.limits, [], 0, [], walk⟩ block.data.length := by
    intro n _ hfits
    exact hfits.1
  obtain ⟨elim', hrun'⟩ := @decodeRecords_relimit ⟨f, kind, f.leafKind pos, _, block⟩ _ _ _ hshape hs rfl
    hrun hrecs hdec _ hroom
  have hblock' : Block.read zlib ((f.bytes.take f.footerStart).drop pos) (f.start pos kind) limits =
      .ok block := by
    unfold Block.read at hblock ⊢
    rw [hshape.blockBytes]
    exact hblock
  exact ⟨(), hkind, (), hhd, (), hali, block, hblock', _, hrun', (), hend, rfl⟩

lemma decodeBlocks_sound (hs : Sound f.header walk) (h : decodeBlocks zlib f pos walk = .ok walk') :
    Sound f.header walk' ∧ Grows walk walk' := by
  fun_induction decodeBlocks zlib f pos walk with
  | case1 | case2 => cases h
  | case3 _ _ _ _ _ _ ih => exact ih hs h
  | case4 => cases h
  | case5 pos walk hmore kind hkind hne block next hblock ih =>
    obtain ⟨hsound, hgro⟩ := decodeBlock_sound hs hblock
    obtain ⟨hsound', hgro'⟩ := ih hsound h
    exact ⟨hsound', hgro.trans hgro'⟩
  | case6 =>
    cases h
    exact ⟨hs, le_refl _, le_refl _⟩

lemma decodeBlocks_of_block {next : Walk} (hmore : pos < f.footerStart)
    (hkind : f.bytes[pos]? = some kind) (hne : kind ≠ 0)
    (h : decodeBlock zlib f pos kind walk = .ok (block, next)) :
    decodeBlocks zlib f pos walk = decodeBlocks zlib f (pos + block.consumed) next := by
  rw [decodeBlocks, if_pos hmore, hkind]
  dsimp only
  rw [if_neg hne, h]

lemma decodeBlocks_of_padding {u : Unit} (hmore : pos < f.footerStart)
    (hkind : f.bytes[pos]? = some 0) (h : checkPadding f pos = .ok u) :
    decodeBlocks zlib f pos walk = decodeBlocks zlib f (paddingEnd f pos) walk := by
  rw [decodeBlocks, if_pos hmore, hkind]
  dsimp only
  rw [if_pos rfl]
  split
  · rename_i hpad
    rw [h] at hpad
    cases hpad
  · rfl

lemma decodeBlocks_relimit (hshape : SameShape f.limits limits) (hs : Sound f.header walk)
    (h : decodeBlocks zlib f pos walk = .ok walk') (hrecs : walk'.records ≤ limits.records.toNat)
    (hdec : walk'.decodedBytes ≤ limits.decodedBytes.toNat) :
    decodeBlocks zlib (Frame.under f limits) pos walk = .ok walk' := by
  fun_induction decodeBlocks zlib f pos walk with
  | case1 | case2 => cases h
  | case3 pos walk hmore u hpad hkind ih =>
    rw [@decodeBlocks_of_padding _ (Frame.under f limits) _ _ u hmore hkind hpad]
    exact ih hs h
  | case4 => cases h
  | case5 pos walk hmore kind hkind hne block next hblock ih =>
    obtain ⟨hsound, -⟩ := decodeBlock_sound hs hblock
    obtain ⟨-, hgro⟩ := decodeBlocks_sound hsound h
    have hblock' := decodeBlock_relimit hshape hs hblock (hgro.records.trans hrecs)
      (hgro.decodedBytes.trans hdec)
    rw [@decodeBlocks_of_block _ (Frame.under f limits) _ _ _ _ _ hmore hkind hne hblock']
    exact ih hsound h
  | case6 pos walk hdone =>
    cases h
    rw [decodeBlocks]
    exact if_neg hdone

end Blocks

section Table

variable {zlib : Zlib} {crc32 : Bytes → UInt32} {bytes : Bytes} {limits limits' : Limits} {table : Table}
  {records dec : Nat}

/-- Decoded records are in canonical order and within the update range of their table. -/
structure TableOrdered (table : Table) : Prop where
  references : table.references.Pairwise (fun a b => a.name.bytes < b.name.bytes)
  refMax : ∀ r ∈ table.references, r.updateIndex ≤ table.maxUpdateIndex
  logs : table.logs.Pairwise (fun a b => logKey a.name.bytes a.updateIndex < logKey b.name.bytes b.updateIndex)
  logMax : ∀ r ∈ table.logs, r.updateIndex ≤ table.maxUpdateIndex
  range : table.minUpdateIndex ≤ table.maxUpdateIndex

lemma parse_range {hdr : Header} (h : Header.parse bytes = .ok hdr) : hdr.min ≤ hdr.max := by
  simp only [Header.parse, bind_ok] at h
  obtain ⟨⟨parsed, c⟩, hfield, h⟩ := h
  cases h
  simp only [Header.parseFields, Parser.bind_ok, Parser.lift_eq_ok, reject_ok] at hfield
  obtain ⟨_, _, -, _, _, -, ver, _, -, alignment, _, -, min, _, -, max, _, -, _, c₁, ⟨hrg, -⟩, h⟩ := hfield
  have hle : min ≤ max := not_lt.mp hrg
  split_ifs at h with h1 h2
  · cases Parser.pure_eq_ok.mp h
    exact hle
  · obtain ⟨hash, c₂, -, h⟩ := Parser.bind_ok.mp h
    split_ifs at h
    · cases Parser.pure_eq_ok.mp h
      exact hle
    · cases Parser.pure_eq_ok.mp h
      exact hle
    · exact (Parser.throw_ne_ok.mp h).elim
  · exact (Parser.throw_ne_ok.mp h).elim

lemma sectionPositions_steady : Parser.Steady Frame.sectionPositions := by
  have hu64 : Parser.Steady u64 := (take_steady 8).bind (fun _ => .pure _)
  exact hu64.bind (fun _ => hu64.bind (fun _ => hu64.bind (fun _ => hu64.bind (fun _ => hu64.bind (fun _ =>
    .pure _)))))

lemma frame_relimit {f : Frame} (hshape : SameShape limits limits')
    (h : Frame.read crc32 bytes limits = .ok f) :
    f.limits = limits ∧ f.header.min ≤ f.header.max ∧
      Frame.read crc32 bytes limits' = .ok (Frame.under f limits') := by
  simp only [Frame.read, bind_ok, reject_ok] at h ⊢
  obtain ⟨hdr, hhd, -, hlen, -, hove, -, hmat, -, hcrc, ⟨poss, c⟩, hpos, h⟩ := h
  cases h
  have hend : c.position ≤ ((bytes.drop (bytes.length - (hdr.size + 44))).take (hdr.size + 40) |>.drop
      hdr.size).length := by
    obtain ⟨n, hc, hfits⟩ := sectionPositions_steady.moves hpos
    dsimp only at hc
    rw [hc]
    rcases hfits with rfl | hfits
    · exact Nat.zero_le _
    · exact hfits.1
  have hpos' := sectionPositions_steady.relimit hpos hshape.stringBytes hend
  exact ⟨rfl, parse_range hhd, hdr, hhd, (), hlen, (), hove, (), hmat, (), hcrc, _, hpos', rfl⟩

lemma checkPositions_under (f : Frame) (positions : List Nat) (previous : Nat) :
    checkPositions (Frame.under f limits) positions previous =
      checkPositions f positions previous := by
  induction positions generalizing previous with
  | nil => rfl
  | cons pos rest ih =>
    simp only [checkPositions]
    rw [ih]
    rfl

theorem decodeUsage_ordered (h : Table.decodeUsage zlib crc32 bytes limits = .ok (table, records, dec)) :
    TableOrdered table := by
  simp only [Table.decodeUsage, bind_ok] at h
  obtain ⟨-, -, f, hframe, -, -, walk, hwalk, -, -, -, -, -, -, -, -, h⟩ := h
  cases h
  obtain ⟨hsound, -⟩ := decodeBlocks_sound (sound_empty f.header) hwalk
  obtain ⟨-, hrg, -⟩ := frame_relimit ⟨rfl, rfl⟩ hframe
  exact ⟨hsound.references.increasing, fun r hr => (hsound.references.last r hr).2, hsound.logs.increasing,
    fun r hr => (hsound.logs.last r hr).2, hrg⟩

/-- A table is decoded alike under every budget that covers what it took. -/
theorem decodeUsage_relimit (hshape : SameShape limits limits')
    (h : Table.decodeUsage zlib crc32 bytes limits = .ok (table, records, dec))
    (hbs : bytes.length ≤ limits'.bytes.toNat) (hrecs : records ≤ limits'.records.toNat)
    (hdec : dec ≤ limits'.decodedBytes.toNat) :
    Table.decodeUsage zlib crc32 bytes limits' = .ok (table, records, dec) := by
  simp only [Table.decodeUsage, bind_ok, reject_ok] at h ⊢
  obtain ⟨-, -, f, hframe, u, hpos, walk, hwalk, -, hbou, u₁, h₁, u₂, h₂, u₃, h₃, h⟩ := h
  cases h
  obtain ⟨hlim, -, hframe'⟩ := frame_relimit hshape hframe
  have hwalk' := decodeBlocks_relimit (hlim ▸ hshape) (sound_empty f.header) hwalk hrecs hdec
  rw [← checkPositions_under f] at hpos
  exact ⟨(), hbs.not_gt, _, hframe', u, hpos, walk, hwalk', (), hbou, u₁, h₁, u₂, h₂, u₃, h₃, rfl⟩

end Table

end Girt.Proofs
