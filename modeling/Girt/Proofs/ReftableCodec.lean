import Girt.Proofs.Recorded
import Girt.Proofs.ReftableLayout

/-!
# Encoding and decoding a table

The writer lays a table out as blocks; scanning those blocks gives back its records.
-/

namespace Girt.Proofs

open ByteLib Girt.Refs Girt.Refs.Reftable List
open Prod (fst snd)
open Cursor (new)
open Table (decode footer header)
open Reads (bind bind_reject byte pure take u64)

variable {zlib : Zlib} {f : Frame} {b : Laid} {blocks done index ridx lidx refs : List Laid} {lim : Limits}
  {base : Bytes} {s s' : Writer.Section} {cur : List (Bytes × Yield)} {table : Table} {logPosition : UInt64}
variable {pos : Nat} {logs : List Laid}
variable {walk walk' : Walk} {rest body bs : Bytes} {ent : Bytes × Bytes}

def images (zlib : Zlib) (blocks : List Laid) : Bytes := blocks.flatMap (Laid.image zlib)

@[simp] lemma images_nil (zlib : Zlib) : images zlib [] = [] := rfl

@[simp] lemma images_cons (zlib : Zlib) (b : Laid) (blocks : List Laid) :
    images zlib (b :: blocks) = b.image zlib ++ images zlib blocks := rfl

lemma images_append (zlib : Zlib) (blocks more : List Laid) :
    images zlib (blocks ++ more) = images zlib blocks ++ images zlib more := by
  simp [images]

/-- The blocks from `position` on count the file header in their offsets as the scan expects. -/
def Starts (zlib : Zlib) (f : Frame) : Nat → List Laid → Prop
  | _, [] => True
  | position, b :: blocks =>
    f.start position b.kind = b.start ∧ Starts zlib f (position + (b.image zlib).length) blocks

structure Readable (header : Header) (b : Laid) : Prop where
  fits : b.Fits
  kind : b.kind ≠ 0
  entries : ∀ e ∈ b.entries, EntryReads header b.kind e.1 e.2
  nonempty : ∀ e ∈ b.entries, e.1 ≠ []

lemma decodeBlock_adds (hz : zlib.Inverts)
    {block : Block} (hb : Readable f.header b)
    (hbs : (f.bytes.take f.footerStart).drop pos = b.image zlib ++ rest)
    (hst : f.start pos b.kind = b.start)
    (h : decodeBlock zlib f pos b.kind walk = .ok (block, walk')) :
    block.consumed = (b.image zlib).length ∧ Adds b.yield walk walk' := by
  simp only [decodeBlock, bind_ok, hbs, hst] at h
  obtain ⟨-, -, -, -, -, -, block', hread, s, hscan, -, -, h⟩ := h
  cases h
  obtain ⟨hdata, hend, hcon⟩ := Laid.read_image hz hb.fits hread
  refine ⟨hcon, ?_⟩
  have hrest : (new block.data f.limits).rest =
      b.entries.flatMap fst ++ (b.restarts.flatMap uint24 ++ beBytes 2 b.restarts.length) := by
    simp [new, Cursor.rest, hdata, Laid.body, Laid.records, Writer.blockBody]
  have hadds := @decodeRecords_adds ⟨f, b.kind, f.leafKind pos, b.start, block⟩ _ _ _ _ hb.entries
    hb.nonempty hrest (by simp [new, hend, Laid.records]) hscan
  split <;> exact hadds

lemma decodeBlocks_adds (hz : zlib.Inverts) (hb : ∀ b ∈ blocks, Readable f.header b)
    (hbs : (f.bytes.take f.footerStart).drop pos = images zlib blocks)
    (hend : pos + (images zlib blocks).length = f.footerStart)
    (hstarts : Starts zlib f pos blocks)
    (h : decodeBlocks zlib f pos walk = .ok walk') :
    Adds (Yield.all (blocks.map Laid.yield)) walk walk' := by
  induction blocks generalizing pos walk with
  | nil =>
    rw [decodeBlocks, if_neg (by simp at hend; omega)] at h
    cases h
    exact Adds.refl _
  | cons b blocks ih =>
    have hpos : 0 < (b.image zlib).length := by
      rw [Laid.image_length]
      omega
    rw [images_cons, length_append] at hend
    rw [images_cons] at hbs
    have hread : Readable f.header b := hb b (.head _)
    have hfirst : f.bytes[pos]? = some b.kind := by
      have hget : ((f.bytes.take f.footerStart).drop pos)[0]? = some b.kind := by
        rw [hbs]
        simp [Laid.image]
      rw [getElem?_drop, Nat.add_zero, getElem?_take_of_lt (by omega)] at hget
      exact hget
    rw [decodeBlocks, if_pos (by omega), hfirst] at h
    simp only [hread.kind, if_false] at h
    split at h
    · cases h
    rename_i block walk₁ hblock
    obtain ⟨hcon, hadds⟩ := decodeBlock_adds hz hread hbs hstarts.1 hblock
    rw [hcon] at h
    have hdrop : (f.bytes.take f.footerStart).drop (pos + (b.image zlib).length) =
        images zlib blocks := by
      rw [← drop_drop, hbs, drop_left]
    exact hadds.trans (ih (fun x hx => hb x (.tail _ hx)) hdrop (by omega) hstarts.2 h)

section Sections
open Girt.Refs.Reftable.Writer

variable {bs bs' : Bytes}

abbrev Item := (Bytes × Bytes) × Yield

def Item.entry (i : Item) : Bytes × Yield := (i.1.2, i.2)

variable {kind : UInt8} {start : Nat} {items : List Item}

/-- The first block has the given start and the others none. -/
def HeadStart (start : Nat) : List Laid → Prop
  | [] => True
  | b :: blocks => b.start = start ∧ ∀ c ∈ blocks, c.start = 0

lemma headStart_concat (h : HeadStart start blocks)
    (hb : b.start = if blocks = [] then start else 0) : HeadStart start (blocks ++ [b]) := by
  cases blocks with
  | nil => simpa [HeadStart] using hb
  | cons c blocks =>
    refine ⟨h.1, ?_⟩
    intro d hd
    rcases mem_append.mp hd with hd | hd
    · exact h.2 d hd
    · rw [mem_singleton.mp hd]
      simpa using hb

lemma append_eq_ok {more : Bytes} (h : append lim bs more = .ok bs') : bs' = bs ++ more := by
  unfold append at h
  split at h
  · cases h
  · cases h
    rfl

lemma block_eq_ok {zlib : Zlib} {lim : Limits} {b : Laid} {pos : UInt64}
    (h : block zlib lim bs b.kind b.records b.restarts b.start = .ok (pos, bs')) :
    bs' = bs ++ b.image zlib ∧ b.Fits := by
  simp only [block, bind_ok, reject_ok, not_or, not_lt] at h
  obtain ⟨-, hfits, bs₁, h₁, bs₂, h₂, h⟩ := h
  cases h
  refine ⟨?_, hfits.2.1, hfits.2.2⟩
  have hhead : bs₁ = bs ++ b.kind :: uint24 b.length := append_eq_ok h₁
  have hpay : bs' = bs₁ ++ b.payload zlib := append_eq_ok h₂
  rw [hpay, hhead]
  simp [Laid.image]

/-- The blocks a section has written and the entries of the open one. -/
structure SectionInv (zlib : Zlib) (base : Bytes) (kind : UInt8) (start : Nat) (items : List Item)
    (s : Writer.Section) (done : List Laid) (cur : List (Bytes × Yield)) : Prop where
  bytes : s.bytes = base ++ images zlib done
  block : s.block = cur.flatMap Prod.fst
  laid : ∀ b ∈ done, b.Fits ∧ b.kind = kind ∧ b.entries ≠ []
  starts : HeadStart start done
  opened : s.start = if done = [] then start else 0
  entries : done.flatMap Laid.entries ++ cur = items.map Item.entry
  index : ∀ r ∈ s.index, ∃ name position, r = indexRecord name position
  count : s.index.length = done.length

lemma flush_inv (inv : SectionInv zlib base kind start items s done cur) (hopen : s.block ≠ [])
    (h : flush zlib lim kind s = .ok s') :
    SectionInv zlib base kind start items s' (done ++ [⟨kind, s.start, cur, s.restarts⟩]) [] := by
  simp only [flush, bind_ok, Prod.exists] at h
  obtain ⟨pos, bs, hblock, h⟩ := h
  cases h
  rw [inv.block] at hblock
  obtain ⟨hbs, hfits⟩ := @block_eq_ok _ _ _ _ ⟨kind, s.start, cur, s.restarts⟩ _ hblock
  refine ⟨?_, rfl, ?_, headStart_concat inv.starts inv.opened, ?_, ?_, ?_, ?_⟩
  · rw [hbs, inv.bytes, images_append, append_assoc]
    simp
  · intro b hb
    rcases mem_append.mp hb with hb | hb
    · exact inv.laid b hb
    rw [mem_singleton.mp hb]
    refine ⟨hfits, rfl, ?_⟩
    rintro rfl
    exact hopen inv.block
  · simp
  · rw [append_nil, flatMap_append, ← inv.entries]
    simp
  · intro r hr
    rcases mem_append.mp hr with hr | hr
    · exact inv.index r hr
    · exact ⟨_, _, mem_singleton.mp hr⟩
  · simp [inv.count]

lemma sectionStep_inv {i : Item} (inv : SectionInv zlib base kind start items s done cur)
    (h : sectionStep zlib lim kind s i.1 = .ok s') :
    ∃ done' cur', SectionInv zlib base kind start (items ++ [i]) s' done' cur' := by
  have hpush : ∀ {t : Writer.Section} {done : List Laid} {cur : List (Bytes × Yield)},
      SectionInv zlib base kind start items t done cur →
      SectionInv zlib base kind start (items ++ [i])
        { t with restarts := t.restarts ++ [t.block.length + t.start + 4], block := t.block ++ i.1.2,
                 last := i.1.1 } done (cur ++ [i.entry]) := by
    intro t done cur inv
    refine ⟨inv.bytes, ?_, inv.laid, inv.starts, inv.opened, ?_, inv.index, inv.count⟩
    · simp [inv.block, Item.entry]
    · rw [← append_assoc, inv.entries]
      simp
  simp only [sectionStep, bind_ok] at h
  obtain ⟨t, hroom, -, -, h⟩ := h
  cases h
  unfold roomFor at hroom
  split at hroom
  · rename_i hopen
    exact ⟨_, _, hpush (flush_inv inv hopen.1 hroom)⟩
  · cases hroom
    exact ⟨_, _, hpush inv⟩

lemma foldlM_inv {more : List Item} (inv : SectionInv zlib base kind start items s done cur)
    (h : (more.map fst).foldlM (sectionStep zlib lim kind) s = .ok s') :
    ∃ done' cur', SectionInv zlib base kind start (items ++ more) s' done' cur' := by
  induction more generalizing items s done cur with
  | nil =>
    cases h
    exact ⟨done, cur, by simpa using inv⟩
  | cons i more ih =>
    rw [map_cons, foldlM_cons, bind_ok] at h
    obtain ⟨t, hstep, h⟩ := h
    obtain ⟨done₁, cur₁, inv₁⟩ := sectionStep_inv inv hstep
    obtain ⟨done₂, cur₂, inv₂⟩ := ih inv₁ h
    exact ⟨done₂, cur₂, by simpa using inv₂⟩

lemma finish_inv (hits : ∀ i ∈ items, i.1.2 ≠ [])
    (inv : SectionInv zlib base kind start items s done cur) (h : finish zlib lim kind s = .ok s') :
    ∃ done', SectionInv zlib base kind start items s' done' [] := by
  unfold finish at h
  split at h
  · rename_i hopen
    exact ⟨_, flush_inv inv hopen h⟩
  rename_i hblock
  cases h
  have hcur : cur = [] := by
    rw [not_not, inv.block] at hblock
    rw [eq_nil_iff_forall_not_mem]
    intro e he
    have hmem : e ∈ items.map Item.entry := by
      rw [← inv.entries]
      exact mem_append_right _ he
    obtain ⟨i, hi, rfl⟩ := mem_map.mp hmem
    exact hits i hi (flatMap_eq_nil_iff.mp hblock _ he)
  exact ⟨done, hcur ▸ inv⟩

lemma indexBody_fst (index : List Bytes) : (indexBody index).1 = index.flatten := by
  have hfold : ∀ (l : List Bytes) (acc : Bytes × List Nat),
      (l.foldl (fun body rec => (body.1 ++ rec, body.2 ++ [body.1.length + 4])) acc).1 =
        acc.1 ++ l.flatten := by
    intro l
    induction l with
    | nil => simp
    | cons r l ih =>
      intro acc
      rw [foldl_cons, ih]
      simp
  exact hfold index _

/-- The blocks of a written section: data blocks that hold its entries in order, then at most
one index block. -/
structure SectionLayout (kind : UInt8) (start : Nat) (items : List Item) (blocks index : List Laid) :
    Prop where
  laid : ∀ b ∈ blocks, b.Fits ∧ b.kind = kind ∧ b.entries ≠ []
  starts : HeadStart start blocks
  entries : blocks.flatMap Laid.entries = items.map Item.entry
  index_laid : ∀ b ∈ index, b.Fits ∧ b.kind = indexBlock ∧ b.start = 0
  index_entries : ∀ b ∈ index, ∀ e ∈ b.entries, ∃ name position, e = (indexRecord name position, Yield.none)
  index_after : blocks = [] → index = []

theorem writeSection_layout {bs : Bytes} {pos : UInt64} (hits : ∀ i ∈ items, i.1.2 ≠ [])
    (h : writeSection zlib lim base kind (items.map fst) start = .ok (pos, bs)) :
    ∃ blocks index, bs = base ++ images zlib (blocks ++ index) ∧
      SectionLayout kind start items blocks index := by
  simp only [writeSection, bind_ok] at h
  obtain ⟨s, hfold, t, hfin, h⟩ := h
  have inv₀ : SectionInv zlib base kind start [] ⟨base, [], [], [], [], start⟩ [] [] :=
    ⟨by simp, rfl, by simp, trivial, by simp, rfl, by simp, rfl⟩
  obtain ⟨done, cur, inv⟩ := foldlM_inv inv₀ hfold
  obtain ⟨blocks, inv⟩ := finish_inv hits inv hfin
  have hens := inv.entries
  rw [append_nil] at hens
  split at h
  · cases h
    refine ⟨blocks, [], by rw [append_nil, inv.bytes], inv.laid, inv.starts, hens, ?_, ?_, ?_⟩ <;>
      simp
  rename_i hnum
  obtain ⟨⟨pos', bs'⟩, hblock, h⟩ := bind_ok.mp h
  cases h
  let last : Laid := ⟨indexBlock, 0, t.index.map (fun r => (r, Yield.none)), (indexBody t.index).2⟩
  have hrecs : last.records = (indexBody t.index).1 := by
    rw [indexBody_fst]
    simp [last, Laid.records, flatMap_map, flatMap_id']
  rw [← hrecs] at hblock
  obtain ⟨hbs, hfits⟩ := @block_eq_ok _ _ _ _ last _ hblock
  refine ⟨blocks, [last], ?_, inv.laid, inv.starts, hens, ?_, ?_, ?_⟩
  · rw [hbs, inv.bytes, images_append, append_assoc]
    simp
  · intro b hb
    rw [mem_singleton.mp hb]
    exact ⟨hfits, rfl, rfl⟩
  · intro b hb e he
    rw [mem_singleton.mp hb] at he
    obtain ⟨r, hr, rfl⟩ := mem_map.mp he
    obtain ⟨name, pos, rfl⟩ := inv.index r hr
    exact ⟨name, pos, rfl⟩
  · intro hnil
    rw [inv.count, hnil] at hnum
    simp at hnum

lemma Fits.entry_length (hb : b.Fits) {e : Bytes × Yield} (he : e ∈ b.entries) :
    e.1.length < 2 ^ 61 := by
  have hle : e.1.length ≤ b.records.length :=
    (sublist_flatten_of_mem (mem_map_of_mem he)).length_le
  have hlen := hb.length
  simp only [Laid.length, blockLength] at hlen
  omega

lemma SectionLayout.readable {hdr : Header} (hl : SectionLayout kind start items blocks index) (hkind : kind ≠ 0)
    (hits : ∀ i ∈ items, i.1.2 ≠ [])
    (hreads : ∀ i ∈ items, i.1.2.length < 2 ^ 61 → EntryReads hdr kind i.1.2 i.2) :
    ∀ b ∈ blocks ++ index, Readable hdr b := by
  intro b hb
  rcases mem_append.mp hb with hb | hb
  · obtain ⟨hfits, rfl, -⟩ := hl.laid b hb
    have hitem : ∀ e ∈ b.entries, ∃ i ∈ items, Item.entry i = e := by
      intro e he
      have hmem : e ∈ items.map Item.entry := by
        rw [← hl.entries]
        exact mem_flatMap.mpr ⟨b, hb, he⟩
      exact mem_map.mp hmem
    refine ⟨hfits, hkind, ?_, ?_⟩
    · intro e he
      have hlen := Fits.entry_length hfits he
      obtain ⟨i, hi, rfl⟩ := hitem e he
      exact hreads i hi hlen
    · intro e he
      obtain ⟨i, hi, rfl⟩ := hitem e he
      exact hits i hi
  · obtain ⟨hfits, hidx, -⟩ := hl.index_laid b hb
    refine ⟨hfits, by rw [hidx]; decide, ?_, ?_⟩
    · intro e he
      have hlen := Fits.entry_length hfits he
      obtain ⟨name, pos, rfl⟩ := hl.index_entries b hb e he
      rw [hidx]
      exact entryReads_index hdr hlen
    · intro e he
      obtain ⟨name, pos, rfl⟩ := hl.index_entries b hb e he
      simp [indexRecord, key]

lemma all_flatMap (blocks : List Laid) :
    Yield.all (blocks.map Laid.yield) = Yield.all ((blocks.flatMap Laid.entries).map snd) := by
  induction blocks with
  | nil => rfl
  | cons b blocks ih =>
    rw [map_cons, Yield.all_cons, ih, flatMap_cons, map_append, Yield.all_append]
    rfl

lemma all_none {ys : List Yield} (h : ∀ y ∈ ys, y = Yield.none) : Yield.all ys = Yield.none := by
  induction ys with
  | nil => rfl
  | cons y ys ih =>
    rw [Yield.all_cons, h y mem_cons_self, ih (fun z hz => h z (mem_cons_of_mem _ hz))]
    rfl

lemma SectionLayout.blocks_eq_nil (hl : SectionLayout kind start [] blocks index) :
    blocks = [] := by
  cases blocks with
  | nil => rfl
  | cons b blocks =>
    have hens := hl.entries
    rw [flatMap_cons, map_nil, append_eq_nil_iff] at hens
    exact absurd hens.1 (hl.laid b (.head _)).2.2

lemma SectionLayout.yield (hl : SectionLayout kind start items blocks index) :
    Yield.all ((blocks ++ index).map Laid.yield) = Yield.all (items.map snd) := by
  have hidx : Yield.all (index.map Laid.yield) = Yield.none := by
    refine all_none (fun y hy => ?_)
    obtain ⟨b, hb, rfl⟩ := mem_map.mp hy
    refine all_none (fun z hz => ?_)
    obtain ⟨e, he, rfl⟩ := mem_map.mp hz
    obtain ⟨name, pos, rfl⟩ := hl.index_entries b hb e he
    rfl
  have hits : (items.map Item.entry).map snd = items.map snd := by
    simp [Item.entry]
  rw [map_append, Yield.all_append, hidx, all_flatMap, hl.entries, hits]
  simp [Yield.append, Yield.none]

end Sections

def tableHeader (table : Table) : Header :=
  ⟨table.header.length, 0, table.format, table.minUpdateIndex, table.maxUpdateIndex⟩

lemma reads_header (table : Table) : Reads Header.parseFields table.header (tableHeader table) := by
  obtain ⟨fmt, lo, hi, refs, logs⟩ := table
  have hmag : (ascii "REFT").length = 4 := by decide
  cases fmt with
  | sha1 =>
    have hshape : header ⟨.sha1, lo, hi, refs, logs⟩ = ascii "REFT" ++ ([1] ++ ([0, 0, 0] ++
        (beBytes 8 lo.toNat ++ (beBytes 8 hi.toNat ++ [])))) := by
      simp [header]
    have hlen : (header ⟨.sha1, lo, hi, refs, logs⟩).length = 24 := by
      simp [header, hmag]
    unfold tableHeader
    rw [hlen, hshape]
    exact bind (take hmag) (bind_reject (bind (byte 1)
      (bind (take rfl) (bind (u64 lo) (bind (u64 hi)
        (bind_reject (pure _)))))))
  | sha256 =>
    have hhash : (ascii "s256").length = 4 := by decide
    have hshape : header ⟨.sha256, lo, hi, refs, logs⟩ = ascii "REFT" ++ ([2] ++ ([0, 0, 0] ++
        (beBytes 8 lo.toNat ++ (beBytes 8 hi.toNat ++ (ascii "s256" ++ []))))) := by
      simp [header]
    have hlen : (header ⟨.sha256, lo, hi, refs, logs⟩).length = 28 := by
      simp [header, hmag, hhash]
    unfold tableHeader
    rw [hlen, hshape]
    exact bind (take hmag) (bind_reject (bind (byte 2)
      (bind (take rfl) (bind (u64 lo) (bind (u64 hi)
        (bind_reject (bind (take hhash) (pure _))))))))

lemma parse_header {hdr : Header}
    (h : Header.parse (table.header ++ rest) = .ok hdr) : hdr = tableHeader table := by
  obtain ⟨⟨hdr', c⟩, hpar, h⟩ := bind_ok.mp h
  cases h
  have hr := reads_header table _ rest _ (by simp [new, Cursor.rest]) hpar
  exact congrArg fst hr

lemma reads_sectionPositions (a b c d e : UInt64) :
    Reads Frame.sectionPositions ([a, b, c, d, e].flatMap (beBytes 8 ·.toNat)) (a, b, c, d, e) :=
  bind (u64 a) (bind (u64 b) (bind (u64 c) (bind (u64 d)
    (bind (u64 e) (pure _)))))

structure FrameOf (table : Table) (body : Bytes) (logPosition : UInt64) (f : Frame) : Prop where
  header : f.header = tableHeader table
  footerStart : f.footerStart = table.header.length + body.length
  contents : f.bytes.take f.footerStart = table.header ++ body
  firstLog : logPosition ≠ 0 → f.firstLog = false

lemma frame_read {crc32 : Bytes → UInt32}
    {ridx lidx : UInt64} (hbs : bs = table.header ++ body ++
      footer crc32 table.header [ridx, 0, 0, logPosition, lidx])
    (h : Frame.read crc32 bs lim = .ok f) : FrameOf table body logPosition f := by
  simp only [Frame.read, bind_ok] at h
  obtain ⟨hdr, hhd, -, -, -, -, -, -, -, -, ⟨flds, c⟩, hfield, h⟩ := h
  cases h
  have hhd' : hdr = tableHeader table := by
    rw [hbs, append_assoc] at hhd
    exact parse_header hhd
  subst hhd'
  have hfoo : (footer crc32 table.header [ridx, 0, 0, logPosition, lidx]).length =
      table.header.length + 44 := by
    simp [footer]
  have hst : bs.length - ((tableHeader table).size + 44) = (table.header ++ body).length := by
    rw [hbs, length_append, hfoo]
    simp [tableHeader]
  have hpos : ((bs.drop (bs.length - ((tableHeader table).size + 44))).take
      ((tableHeader table).size + 40)).drop (tableHeader table).size =
      [ridx, 0, 0, logPosition, lidx].flatMap (beBytes 8 ·.toNat) := by
    rw [hst, hbs, drop_left, footer, take_left' (by simp [tableHeader]),
      tableHeader, drop_left]
  rw [hpos] at hfield
  have hread := reads_sectionPositions ridx 0 0 logPosition lidx _ [] _
    (by simp [new, Cursor.rest]) hfield
  refine ⟨rfl, ?_, ?_, ?_⟩
  · rw [hst, length_append]
  · rw [hst, hbs, take_left]
  · intro hlog
    cases hread
    simp [hlog]

lemma mapM_items {γ : Type} {f : γ → Except Error (Bytes × Bytes)} (y : γ → Yield) {recs : List γ}
    {ents : List (Bytes × Bytes)} (h : recs.mapM f = .ok ents) :
    ∃ items : List Item, items.map fst = ents ∧ items.map snd = recs.map y ∧
      ∀ i ∈ items, ∃ r ∈ recs, f r = .ok i.1 ∧ i.2 = y r := by
  induction recs generalizing ents with
  | nil =>
    cases h
    exact ⟨[], rfl, rfl, by simp⟩
  | cons r recs ih =>
    rw [mapM_cons, bind_ok] at h
    obtain ⟨ent, hen, h⟩ := h
    obtain ⟨rest, hrest, h⟩ := bind_ok.mp h
    cases h
    obtain ⟨items, hfirst, hsound, hits⟩ := ih hrest
    refine ⟨(ent, y r) :: items, by simp [hfirst], by simp [hsound], ?_⟩
    intro i hi
    rcases mem_cons.mp hi with rfl | hi
    · exact ⟨r, .head _, hen, rfl⟩
    · obtain ⟨r', hr', hi'⟩ := hits i hi
      exact ⟨r', .tail _ hr', hi'⟩

lemma all_references (refs : List RefRecord) :
    Yield.all (refs.map (fun r => ⟨[r], []⟩)) = ⟨refs, []⟩ := by
  induction refs with
  | nil => rfl
  | cons r refs ih => simp [ih, Yield.append]

lemma all_logs (logs : List LogRecord) :
    Yield.all (logs.map (fun r => ⟨[], [r]⟩)) = ⟨[], logs⟩ := by
  induction logs with
  | nil => rfl
  | cons r logs ih => simp [ih, Yield.append]

structure TableLayout (zlib : Zlib) (table : Table) (refs logs ridx lidx : List Laid) : Prop where
  refs : ∃ items, SectionLayout refBlock table.header.length items refs ridx ∧
    items.map Prod.snd = table.references.map (fun r => ⟨[r], []⟩) ∧
    ∀ i ∈ items, ∃ r ∈ table.references, encodeRef table r = .ok i.1 ∧ i.2 = ⟨[r], []⟩
  logs : ∃ items, SectionLayout logBlock 0 items logs lidx ∧
    items.map Prod.snd = table.logs.map (fun r => ⟨[], [r]⟩) ∧
    ∀ i ∈ items, ∃ r ∈ table.logs, encodeLog table r = .ok i.1 ∧ i.2 = ⟨[], [r]⟩

lemma encodeRef_ne_nil {rec : RefRecord} (h : encodeRef table rec = .ok ent) : ent.2 ≠ [] := by
  obtain ⟨kind, tgt, peeled, -, -, -, -, rfl⟩ := encodeRef_eq_ok h
  simp [key]

lemma encodeLog_ne_nil {rec : LogRecord} (h : encodeLog table rec = .ok ent) : ent.2 ≠ [] := by
  obtain ⟨kind, body, -, -, rfl⟩ := encodeLog_eq_ok h
  simp [key]

/-- The writer's output is the header, the blocks of both sections and the footer. -/
theorem layout_eq_ok {crc32 : Bytes → UInt32} {bs : Bytes} (h : table.layout zlib crc32 lim = .ok bs) :
    ∃ refs ridx logs lidx refPosition logPosition logIndexPosition,
      TableLayout zlib table refs logs ridx lidx ∧
      (table.logs ≠ [] → refs ++ ridx = [] → logPosition ≠ 0) ∧
      bs = table.header ++ images zlib (refs ++ ridx ++ (logs ++ lidx)) ++
        footer crc32 table.header [refPosition, 0, 0, logPosition, logIndexPosition] := by
  simp only [Table.layout, bind_ok] at h
  obtain ⟨-, -, refEntries, hrefs, ⟨refPosition, bs₁⟩, hrfS, logEntries, hlogs,
    ⟨logIndexPosition, bs₂⟩, hlgS, h⟩ := h
  obtain ⟨refItems, rfl, hrfY, href⟩ := mapM_items (fun r => ⟨[r], []⟩) hrefs
  obtain ⟨logItems, rfl, hlgY, hlog⟩ := mapM_items (fun r => ⟨[], [r]⟩) hlogs
  obtain ⟨refs, ridx, hbs₁, hrfL⟩ := writeSection_layout (fun i hi => by
    obtain ⟨r, -, hr, -⟩ := href i hi
    exact encodeRef_ne_nil hr) hrfS
  obtain ⟨logs, lidx, hbs₂, hlgL⟩ := writeSection_layout (fun i hi => by
    obtain ⟨r, -, hr, -⟩ := hlog i hi
    exact encodeLog_ne_nil hr) hlgS
  refine ⟨refs, ridx, logs, lidx, refPosition,
    if table.logs = [] then 0 else UInt64.ofNat bs₁.length, logIndexPosition,
    ⟨⟨refItems, hrfL, hrfY, href⟩, ⟨logItems, hlgL, hlgY, hlog⟩⟩, ?_, ?_⟩
  · intro hne hnil
    rw [if_neg hne, hbs₁, hnil]
    cases hform : table.format <;>
      simp [header, hform, show (ascii "REFT").length = 4 by decide,
        show (ascii "s256").length = 4 by decide]
  · rw [append_eq_ok h, hbs₂, hbs₁, images_append zlib (refs ++ ridx)]
    simp

lemma start_after (h : f.header.size < pos) (kind : UInt8) : f.start pos kind = 0 := by
  unfold Frame.start
  rw [if_neg (by omega)]

lemma starts_after (h : f.header.size < pos) (hb : ∀ b ∈ blocks, b.start = 0) :
    Starts zlib f pos blocks := by
  induction blocks generalizing pos with
  | nil => trivial
  | cons b blocks ih =>
    refine ⟨?_, ih (by omega) (fun c hc => hb c (.tail _ hc))⟩
    rw [start_after h, hb b mem_cons_self]

lemma starts_head (hst : f.start f.header.size b.kind = b.start) (hb : ∀ c ∈ blocks, c.start = 0) :
    Starts zlib f f.header.size (b :: blocks) := by
  refine ⟨hst, starts_after ?_ hb⟩
  rw [Laid.image_length]
  omega

lemma headStart_zero (h : HeadStart 0 blocks) : ∀ b ∈ blocks, b.start = 0 := by
  cases blocks with
  | nil => simp
  | cons b blocks =>
    intro c hc
    rcases mem_cons.mp hc with rfl | hc
    · exact h.1
    · exact h.2 c hc

lemma TableLayout.readable (hl : TableLayout zlib table refs logs ridx lidx) :
    ∀ b ∈ refs ++ ridx ++ (logs ++ lidx), Readable (tableHeader table) b := by
  obtain ⟨refItems, hrfL, -, href⟩ := hl.refs
  obtain ⟨logItems, hlgL, -, hlog⟩ := hl.logs
  intro b hb
  rcases mem_append.mp hb with hb | hb
  · refine hrfL.readable (by decide) (fun i hi => ?_) (fun i hi hlen => ?_) b hb
    · obtain ⟨r, -, hr, -⟩ := href i hi
      exact encodeRef_ne_nil hr
    · obtain ⟨r, -, hr, hy⟩ := href i hi
      rw [hy]
      exact entryReads_ref hr rfl rfl hlen
  · refine hlgL.readable (by decide) (fun i hi => ?_) (fun i hi hlen => ?_) b hb
    · obtain ⟨r, -, hr, -⟩ := hlog i hi
      exact encodeLog_ne_nil hr
    · obtain ⟨r, -, hr, hy⟩ := hlog i hi
      rw [hy]
      exact entryReads_log hr rfl hlen

lemma TableLayout.yield
    (hl : TableLayout zlib table refs logs ridx lidx) :
    Yield.all ((refs ++ ridx ++ (logs ++ lidx)).map Laid.yield) =
      ⟨table.references, table.logs⟩ := by
  obtain ⟨refItems, href, hrfY, -⟩ := hl.refs
  obtain ⟨logItems, hlog, hlgY, -⟩ := hl.logs
  rw [map_append, Yield.all_append, href.yield, hlog.yield, hrfY, hlgY,
    all_references, all_logs]
  simp [Yield.append]

lemma TableLayout.starts (hl : TableLayout zlib table refs logs ridx lidx)
    (hf : FrameOf table body logPosition f)
    (hlog : table.logs ≠ [] → refs ++ ridx = [] → logPosition ≠ 0) :
    Starts zlib f f.header.size (refs ++ ridx ++ (logs ++ lidx)) := by
  obtain ⟨refItems, href, -, -⟩ := hl.refs
  obtain ⟨logItems, hlgL, hlgY, -⟩ := hl.logs
  have hrfI : ∀ b ∈ ridx, b.start = 0 := fun b hb => (href.index_laid b hb).2.2
  have hlgI : ∀ b ∈ lidx, b.start = 0 := fun b hb => (hlgL.index_laid b hb).2.2
  have hlogs : ∀ b ∈ logs, b.start = 0 := headStart_zero hlgL.starts
  have hsize : f.header.size = table.header.length := by
    rw [hf.header]
    rfl
  cases refs with
  | cons b refs =>
    have hb := href.laid b (.head _)
    rw [cons_append, cons_append]
    refine starts_head ?_ ?_
    · rw [hb.2.1, href.starts.1]
      simp [Frame.start, hsize, refBlock, logBlock]
    intro c hc
    simp only [mem_append] at hc
    rcases hc with (hc | hc) | hc | hc
    · exact href.starts.2 c hc
    · exact hrfI c hc
    · exact hlogs c hc
    · exact hlgI c hc
  | nil =>
    have hnil : ridx = [] := href.index_after rfl
    subst hnil
    cases logs with
    | nil =>
      rw [hlgL.index_after rfl]
      trivial
    | cons b logs =>
      have hb := hlgL.laid b (.head _)
      have hne : table.logs ≠ [] := by
        intro hemp
        rw [hemp, map_nil, map_eq_nil_iff] at hlgY
        subst hlgY
        cases hlgL.blocks_eq_nil
      refine starts_head ?_ ?_
      · rw [hb.2.1, hlogs b mem_cons_self, Frame.start, hf.firstLog (hlog hne rfl)]
        simp
      intro c hc
      rcases mem_append.mp hc with hc | hc
      · exact hlogs c (.tail _ hc)
      · exact hlgI c hc

/-- Whatever limits a table is decoded under, the bytes the writer laid out for it can only be
decoded to that table. -/
theorem decode_layout (hz : zlib.Inverts) {crc32 : Bytes → UInt32} {dec : Table}
    {lim' : Limits} {bs : Bytes} (hlay : table.layout zlib crc32 lim = .ok bs)
    (h : decode zlib crc32 bs lim' = .ok dec) : dec = table := by
  obtain ⟨refs, ridx, logs, lidx, refPosition, logPosition, logIndexPosition, hl, hlog, hbs⟩ :=
    layout_eq_ok hlay
  obtain ⟨⟨t, usage⟩, husa, h⟩ := bind_ok.mp h
  cases h
  simp only [Table.decodeUsage, bind_ok] at husa
  obtain ⟨-, -, f, hframe, -, -, walk, hwalk, -, -, -, -, -, -, -, -, husa⟩ := husa
  cases husa
  have hf := frame_read hbs hframe
  have hsize : f.header.size = table.header.length := by
    rw [hf.header]
    rfl
  have hcon : (f.bytes.take f.footerStart).drop f.header.size =
      images zlib (refs ++ ridx ++ (logs ++ lidx)) := by
    rw [hf.contents, hsize, drop_left]
  have hadds := decodeBlocks_adds hz (hf.header ▸ hl.readable) hcon
    (by rw [hf.footerStart, hsize]) (hl.starts hf hlog) hwalk
  rw [hl.yield] at hadds
  obtain ⟨href, hlogs⟩ := hadds
  rw [hf.header, href, hlogs]
  rfl

lemma encode_eq_ok {zlib : Zlib} {crc32 : Bytes → UInt32} {table : Table} {lim : Limits}
    (h : table.encode zlib crc32 lim = .ok bs) :
    table.layout zlib crc32 lim = .ok bs ∧
      ∃ decoded, decode zlib crc32 bs lim = .ok decoded := by
  simp only [Table.encode, bind_ok] at h
  obtain ⟨layout, hlay, decoded, hdec, h⟩ := h
  cases h
  exact ⟨hlay, decoded, hdec⟩

/-- Whenever a table can be encoded, decoding the result under the same limits succeeds and gives
back the same table. -/
theorem decode_encode_table (zlib : Zlib) (hz : zlib.Inverts) (crc32 : Bytes → UInt32)
    (table : Table)
    (limits : Limits) (bytes : Bytes) (h : table.encode zlib crc32 limits = .ok bytes) :
    Table.decode zlib crc32 bytes limits = .ok table := by
  obtain ⟨hlay, decoded, hdec⟩ := encode_eq_ok h
  have hsame : decoded = table := decode_layout hz hlay hdec
  rw [hdec, hsame]

def sampleBranch : RefName := ⟨ascii "refs/heads/main", by decide +kernel⟩

def sampleId (byte : UInt8) : ObjectId := ⟨.sha1, List.replicate 20 byte, by simp [ObjectFormat.digestLen]⟩

def sampleLog : LogRecord :=
  ⟨.ofRefName sampleBranch, 2, some ⟨sampleId 0, sampleId 7, ascii "A", ascii "a@b", 1700000000, -210,
    ascii "init"⟩⟩

def sampleTable : Table :=
  ⟨.sha1, 1, 2, [⟨.ofRefName .head, 1, some (.symbolic sampleBranch), none⟩,
    ⟨.ofRefName sampleBranch, 2, some (.direct (sampleId 7)), none⟩], [sampleLog]⟩

def sampleStream : Bytes × Bytes :=
  ([0, 128, 65] ++ ascii "refs/heads/main" ++ [0, 255, 255, 255, 255, 255, 255, 255, 253] ++
    List.replicate 20 0 ++ List.replicate 20 7 ++ [1, 65, 3, 97, 64, 98, 133, 169, 206, 225, 0, 254, 182, 4,
    105, 110, 105, 116, 0, 0, 4, 0, 1],
   [120, 156, 99, 104, 112, 44, 74, 77, 43, 214, 207, 72, 77, 76, 41, 214, 207, 77, 204, 204, 99, 248, 15, 1,
    127, 25, 176, 0, 118, 44, 128, 209, 145, 57, 209, 33, 169, 117, 229, 185, 135, 12, 255, 182, 177, 100,
    230, 101, 150, 48, 48, 176, 48, 48, 2, 0, 158, 84, 22, 146])

lemma sampleStream_recorded : Recorded [sampleStream] := by
  constructor
  · intro e he
    rw [mem_singleton.mp he]
    rfl
  · intro e he e' he' _
    rw [mem_singleton.mp he, mem_singleton.mp he']

def sampleBytes : Bytes :=
  sampleTable.header ++ [114, 0, 0, 97, 0, 35] ++ ascii "HEAD" ++ [0, 15] ++ ascii "refs/heads/main" ++
    [0, 121] ++ ascii "refs/heads/main" ++ [1] ++ List.replicate 20 7 ++
    [0, 0, 28, 0, 0, 51, 0, 2, 103, 0, 0, 94] ++ sampleStream.2 ++
    sampleTable.header ++ List.replicate 31 0 ++ [97] ++ List.replicate 8 0 ++ [105, 184, 57, 121]

theorem decode_encode_sampleTable :
    sampleTable.encode (recordedZlib [sampleStream]) crc32 Limits.default = .ok sampleBytes ∧
      Table.decode (recordedZlib [sampleStream]) crc32 sampleBytes Limits.default =
      .ok sampleTable := by
  have henc : sampleTable.encode (recordedZlib [sampleStream]) crc32 Limits.default =
      .ok sampleBytes := by
    decide +kernel
  exact ⟨henc, decode_encode_table _ (recordedZlib_inverts sampleStream_recorded) _ _ _ _ henc⟩

end Girt.Proofs
