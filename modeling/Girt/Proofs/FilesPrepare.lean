import Girt.Lib.Chain
import Girt.Proofs.FilesPacked

/-!
# What preparation establishes

The values behind a batch of edits, and the operations that are handed to publication.
-/

namespace Girt.Proofs
open ByteLib Pieces Girt.Refs Girt.Refs.Files List
open UInt8 (ofNat)

section LooseFiles

variable {format : ObjectFormat} {path : Path}
variable {id : ObjectId} {b : UInt8}

lemma forall_nibble {P : UInt8 → Prop} (h : ∀ k : Fin 16, P (ofNat k)) {n : UInt8} (hn : n < 16) :
    P n := by
  have hlt : n.toNat < 16 := by simpa using UInt8.lt_iff_toNat_lt.mp hn
  simpa using h ⟨n.toNat, hlt⟩

lemma hexDigit_lowerHex (n : UInt8) (h : n < 16) : Files.hexDigit (lowerHex n) = some n :=
  forall_nibble (P := fun n => Files.hexDigit (lowerHex n) = some n) (by decide) h

lemma nibbles (b : UInt8) : b >>> 4 < 16 ∧ b &&& 15 < 16 ∧ (b >>> 4) <<< 4 ||| (b &&& 15) = b := by
  have hall : ∀ k : Fin 256, (ofNat k) >>> 4 < 16 ∧ (ofNat k) &&& 15 < 16 ∧
      ((ofNat k) >>> 4) <<< 4 ||| ((ofNat k) &&& 15) = ofNat k := by decide +kernel
  have hb : b = ofNat b.toNat := by simp
  rw [hb]
  exact hall ⟨b.toNat, b.toNat_lt⟩

lemma hexBytes_flatMap (bytes : Bytes) :
    hexBytes (bytes.flatMap (fun b : UInt8 => [lowerHex (b >>> 4), lowerHex (b &&& 15)])) =
      some bytes := by
  induction bytes with
  | nil => rfl
  | cons b bytes ih =>
    obtain ⟨hhigh, hlow, hjoin⟩ := nibbles b
    rw [flatMap_cons, cons_append, cons_append, nil_append, hexBytes,
      hexDigit_lowerHex _ hhigh, hexDigit_lowerHex _ hlow, ih]
    simp [hjoin]

lemma idText_length (id : ObjectId) : (idText id).length = id.format.digestLen * 2 := by
  simp [idText, length_flatMap, id.width]

lemma mem_idText (h : b ∈ idText id) : ∃ n < 16, b = lowerHex n := by
  obtain ⟨c, -, hb⟩ := mem_flatMap.mp h
  obtain ⟨hhigh, hlow, -⟩ := nibbles c
  simp only [mem_cons, not_mem_nil, or_false] at hb
  rcases hb with rfl | rfl
  · exact ⟨_, hhigh, rfl⟩
  · exact ⟨_, hlow, rfl⟩

lemma idText_range (h : b ∈ idText id) : 48 ≤ b ∧ b ≤ 102 := by
  obtain ⟨n, hn, rfl⟩ := mem_idText h
  exact forall_nibble (P := fun n => 48 ≤ lowerHex n ∧ lowerHex n ≤ 102) (by decide) hn

lemma hexBytes_idText (id : ObjectId) :
    (hexBytes (idText id) >>= ObjectId.fromBytes id.format) = some id := by
  rw [idText, hexBytes_flatMap]
  exact ObjectId.fromBytes_bytes id

lemma parseId_idText (hform : id.format = format) (hnull : id.isNull = false) :
    parseId format (idText id) path = .ok id := by
  subst hform
  simp only [parseId, bind_ok, reject_ok, idText_length, not_not, hexBytes_idText]
  exact ⟨(), trivial, (), by simp [hnull], rfl⟩

lemma not_whitespace (h : ¬ b ≤ 32) : Signature.isAsciiWhitespace b = false := by
  unfold Signature.isAsciiWhitespace
  have hne : ∀ c : UInt8, c ≤ 32 → (b == c) = false := by
    intro c hc
    refine beq_eq_false_iff_ne.mpr ?_
    rintro rfl
    exact h hc
  rw [hne 32 (by decide), hne 9 (by decide), hne 10 (by decide), hne 12 (by decide), hne 13 (by decide)]
  rfl

lemma trimAsciiEnd_newline {bytes : Bytes} (h : ∀ b ∈ bytes.getLast?, ¬ b ≤ 32) :
    trimAsciiEnd (bytes ++ [newline]) = bytes := by
  unfold trimAsciiEnd
  rw [rdropWhile_concat_pos _ _ _ (by decide), rdropWhile_eq_self_iff]
  intro hne
  rw [not_whitespace (h _ (getLast?_eq_some_getLast hne))]
  decide

lemma parseLoose_targetBytes {target : Target} (h : validateTarget format target = .ok ()) :
    parseLoose format (targetBytes target) path = .ok target := by
  cases target with
  | symbolic name =>
    have hlast : ∀ b ∈ (symbolicStart ++ name.bytes).getLast?, ¬ b ≤ 32 := by
      intro b hb
      rw [getLast?_append_of_ne_nil _ (refName_ne_nil name)] at hb
      exact refName_byte (mem_of_getLast? hb)
    unfold parseLoose targetBytes
    rw [trimAsciiEnd_newline hlast, if_pos (List.isPrefixOf_iff_prefix.mpr (prefix_append _ _)),
      drop_left, RefName.new_bytes]
  | direct id =>
    simp only [validateTarget, requireFormat, bind_ok, reject_ok, not_not] at h
    obtain ⟨-, hform, hnull⟩ := h
    have hlast : ∀ b ∈ (idText id).getLast?, ¬ b ≤ 32 := by
      intro b hb hle
      have hrg := (idText_range (mem_of_getLast? hb)).1
      exact absurd (hrg.trans hle) (by decide)
    have hst : ¬ symbolicStart.isPrefixOf (idText id) := by
      intro hp
      have hmem : (114 : UInt8) ∈ idText id :=
        (List.isPrefixOf_iff_prefix.mp hp).subset (by decide)
      exact absurd (idText_range hmem).2 (by decide)
    unfold parseLoose targetBytes
    rw [trimAsciiEnd_newline hlast, if_neg hst, parseId_idText hform (by simpa using hnull)]

end LooseFiles

section Values

variable {refs : References} {store : Files.Store} {snap : Snapshot}
variable {name : RefName}

lemma read_of_loaded (h : loadPacked refs store = .ok snap) (name : RefName) :
    read refs store name = readLocked refs store snap.records name := by
  unfold Files.read readLocked
  cases readLoose refs store name with
  | error e => rfl
  | ok value =>
    cases value with
    | some target => rfl
    | none =>
      change (if name.perWorktree then _ else _) = _
      rw [h]
      by_cases hp : name.perWorktree
      · simp [hp]
        rfl
      · simp [hp]
        rfl

/-- A chain that was read from the store, starting at `name`. -/
structure Observes (refs : References) (store : Files.Store) (resolve : Bool) (name : RefName) (chain : Observed) : Prop where
  values : ∀ p ∈ chain, read refs store p.1 = .ok p.2
  start : chain.names.head? = some name
  links : resolve = true → Links.Chain (link refs store) name chain.names
  single : resolve = false → chain.names = [name]

lemma link_eq_some_iff {next : RefName} :
    link refs store name = some next ↔ read refs store name = .ok (some (.symbolic next)) := by
  unfold link
  split
  · rename_i next' h
    simp [h]
  rename_i hne
  constructor
  · intro h
    cases h
  · intro h
    exact absurd h (hne next)

lemma discoverFrom_observes (hload : loadPacked refs store = .ok snap) {resolve : Bool}
    {chain result : Observed}
    (h : discoverFrom refs store snap.records resolve chain name = .ok result) :
    ∃ tail, result = chain ++ tail ∧ Observes refs store resolve name tail := by
  have hread := read_of_loaded hload
  fun_induction discoverFrom refs store snap.records resolve chain name with
  | case1 | case2 | case3 => cases h
  | case4 chain name hfr next hnext hres hdep ih =>
    obtain ⟨tail, rfl, htail⟩ := ih h
    have hval : read refs store name = .ok (some (.symbolic next)) := (hread name).trans hnext
    refine ⟨(name, some (.symbolic next)) :: tail, by simp, ?_, rfl, ?_, ?_⟩
    · intro p hp
      rcases mem_cons.mp hp with rfl | hp
      · exact hval
      · exact htail.values p hp
    · intro _
      exact .step (link_eq_some_iff.mpr hval) (htail.links hres)
    · intro hf
      exact absurd hres (by simp [hf])
  | case5 chain name hfr next hnext hres =>
    cases h
    refine ⟨[(name, some (.symbolic next))], rfl, ?_, rfl, fun hr => absurd hr hres, fun _ => rfl⟩
    simpa using (hread name).trans hnext
  | case6 chain name hfr target hstop hval =>
    cases h
    have hval' : read refs store name = .ok target := (hread name).trans hval
    refine ⟨[(name, target)], rfl, ?_, rfl, fun _ => .stop ?_, fun _ => rfl⟩
    · simpa using hval'
    cases hlink : link refs store name with
    | none => rfl
    | some next =>
      have hnext := link_eq_some_iff.mp hlink
      rw [hval'] at hnext
      cases hnext
      exact absurd rfl (hstop next)

end Values

section Plans

variable {refs : References} {store : Files.Store} {snap : Snapshot} {ident : LogIdentity}
variable {edit : RefEdit} {edits : List RefEdit} {packed : Packed}
variable {st st' : List Plan × NameSet} {n : Nat} {plan : Plan}

lemma mem_nameSet {names : List RefName} {name : RefName} :
    name ∈ (nameSet names).values ↔ name ∈ names := by
  have hkey : OrdMap.Keyed RefName.bytes (nameSet names) := OrdMap.keyed_empty.insertAll names
  have hfun : OrderedMap.Functional (names.map (fun name => (name.bytes, name))) := by
    intro e he e' he' heq
    obtain ⟨a, -, rfl⟩ := mem_map.mp he
    obtain ⟨b, -, rfl⟩ := mem_map.mp he'
    exact RefName.ext heq
  rw [hkey.mem_values, nameSet, OrdMap.get_insertAll_eq_some _ hfun]
  simp

lemma foldlM_claim {names names' : NameSet} {claimed : List RefName}
    (h : claimed.foldlM (claimName refs) names = .ok names') :
    (∀ name ∈ claimed, names.get name.bytes = none) ∧
      ∀ k, names'.get k = none ↔ names.get k = none ∧ ∀ name ∈ claimed, name.bytes ≠ k := by
  apply OrdMap.foldlM_fresh (fun m name m' hcla => ?_) h
  simp only [claimName, bind_ok, reject_ok, not_or] at hcla
  obtain ⟨-, ⟨hfree, -⟩, hcla⟩ := hcla
  cases hcla
  exact ⟨by simpa [OrdMap.contains] using hfree, name, rfl⟩

def Plan.names (plan : Plan) : List RefName := plan.chain.names ++ plan.newChain.names

/-- The chains of an edit as they stand in the store. -/
structure PlanOf (refs : References) (ident : LogIdentity) (store : Files.Store) (edit : RefEdit) (plan : Plan) : Prop where
  chain : Observes refs store
    (ident = .resolved ∧ (edit.dereference = .follow ∨ edit.reflog.appendFields.isSome = true)) edit.name plan.chain
  newChain : ∀ target, edit.target = some (.symbolic target) → edit.reflog.appendFields.isSome = true →
    Observes refs store true target plan.newChain ∧ edit.name ∉ plan.newChain.names

lemma discoverTarget_spec (hload : loadPacked refs store = .ok snap) {chain : Observed}
    (h : discoverTarget refs store snap.records edit = .ok chain) {tgt : RefName}
    (htarg : edit.target = some (.symbolic tgt)) (happ : edit.reflog.appendFields.isSome) :
    Observes refs store true tgt chain ∧ edit.name ∉ chain.names := by
  unfold discoverTarget at h
  rw [htarg] at h
  simp only [happ, if_true, bind_ok, reject_ok] at h
  obtain ⟨res, hres, -, hname, h⟩ := h
  cases h
  obtain ⟨tail, rfl, htail⟩ := discoverFrom_observes hload hres
  exact ⟨by simpa using htail, hname⟩

lemma planEdit_eq_ok (hload : loadPacked refs store = .ok snap)
    (h : planEdit refs store snap.records ident st edit = .ok st') :
    ∃ plan, st'.1 = st.1 ++ [plan] ∧ PlanOf refs ident store edit plan ∧
      (∀ name ∈ Plan.names plan, st.2.get name.bytes = none) ∧
      ∀ k, st'.2.get k = none ↔ st.2.get k = none ∧ ∀ name ∈ Plan.names plan, name.bytes ≠ k := by
  simp only [planEdit, bind_ok] at h
  obtain ⟨chain, hch, newChain, hnew, names, hnames, h⟩ := h
  cases h
  obtain ⟨tail, htail, hobs⟩ := discoverFrom_observes hload hch
  subst htail
  obtain ⟨hfree, hiff⟩ := foldlM_claim hnames
  simp only [mem_nameSet] at hfree hiff
  refine ⟨⟨chain, newChain⟩, rfl, ⟨hobs, ?_⟩, hfree, hiff⟩
  intro tgt htarg happ
  exact discoverTarget_spec hload hnew htarg happ

/-- The plans of a batch depend on different names. The induction is on the edits still to be
planned; the claimed names carry it. -/
lemma planEdits_spec (hload : loadPacked refs store = .ok snap)
    (h : (edits.zipIdx n).foldlM (fun st (edit, idx) =>
      wrapError (TransactionError.prepare (some idx)) (planEdit refs store snap.records ident st edit)) st =
        .ok st') :
    ∃ plans, st'.1 = st.1 ++ plans ∧ List.Forall₂ (PlanOf refs ident store) edits plans ∧
      plans.Pairwise (fun a b => ∀ name ∈ Plan.names a, name ∉ Plan.names b) ∧
      ∀ plan ∈ plans, ∀ name ∈ Plan.names plan, st.2.get name.bytes = none := by
  induction edits generalizing n st with
  | nil =>
    cases h
    exact ⟨[], by simp, .nil, .nil, by simp⟩
  | cons edit edits ih =>
    rw [zipIdx_cons, foldlM_cons, bind_ok] at h
    obtain ⟨next, hnext, h⟩ := h
    obtain ⟨plan, hpla, hplan, hfree, hiff⟩ := planEdit_eq_ok hload (wrapError_eq_ok.mp hnext)
    obtain ⟨rest, hrest, hall, hpair, hlat⟩ := ih h
    refine ⟨plan :: rest, by rw [hrest, hpla, append_assoc]; rfl, .cons hplan hall, ?_, ?_⟩
    · refine List.Pairwise.cons ?_ hpair
      intro other hoth name hname hcla
      exact ((hiff _).mp (hlat other hoth name hcla)).2 name hname rfl
    intro other hoth name hname
    rcases mem_cons.mp hoth with rfl | hoth
    · exact hfree name hname
    · exact ((hiff _).mp (hlat other hoth name hname)).1

lemma actual_mem (h : PlanOf refs ident store edit plan) : plan.actual edit ∈ plan.chain := by
  have hne : plan.chain ≠ [] := by
    intro hnil
    have hst := h.chain.start
    rw [hnil] at hst
    cases hst
  unfold Plan.actual
  split_ifs
  · rw [getLast?_eq_some_getLast hne]
    exact getLast_mem hne
  · rw [head?_eq_some_head hne]
    exact head_mem hne

/-- What publication is asked to do for an edit, and the plan behind it. -/
structure OperationOf (refs : References) (ident : LogIdentity) (store : Files.Store) (packed : Packed) (edit : RefEdit)
    (plan : Plan) (operation : Operation) : Prop where
  planned : PlanOf refs ident store edit plan
  name : operation.name = (plan.actual edit).1
  target : operation.target = edit.target
  packedRemoved : operation.packedRemoved = (edit.target.isNone && packed.contains operation.name.bytes)
  expected : edit.expected.admits (plan.actual edit).2

lemma prepareOperation_spec {op : Operation}
    (hplan : PlanOf refs ident store edit plan)
    (h : prepareOperation refs store packed ident edit plan = .ok op) :
    OperationOf refs ident store packed edit plan (op.existing store edit) := by
  simp only [prepareOperation, bind_ok, checkExpected, reject_ok, not_not] at h
  obtain ⟨-, -, -, hexp, recs, -, h⟩ := h
  cases h
  unfold Operation.existing
  by_cases hexi : edit.reflog.onlyExisting
  · rw [if_pos hexi]
    exact ⟨hplan, rfl, rfl, rfl, hexp⟩
  · rw [if_neg hexi]
    exact ⟨hplan, rfl, rfl, rfl, hexp⟩

lemma prepareOperations_spec {plans : List Plan}
    {ops : List Operation} (hpla : List.Forall₂ (PlanOf refs ident store) edits plans)
    (hpair : plans.Pairwise (fun a b => ∀ name ∈ Plan.names a, name ∉ Plan.names b))
    (h : ((edits.zip plans).zipIdx n).mapM (fun ((edit, plan), idx) =>
      wrapError (TransactionError.prepare (some idx)) (prepareOperation refs store packed ident edit plan)) =
        .ok ops) :
    List.Forall₂ (fun edit op => ∃ plan, OperationOf refs ident store packed edit plan op) edits
        (List.zipWith (Operation.existing store) edits ops) ∧
      (List.zipWith (Operation.existing store) edits ops).Pairwise (·.name ≠ ·.name) ∧
      ∀ op ∈ List.zipWith (Operation.existing store) edits ops,
        ∃ plan ∈ plans, op.name ∈ Plan.names plan := by
  induction hpla generalizing n ops with
  | nil =>
    exact ⟨.nil, .nil, by simp⟩
  | cons hplan hpla ih =>
    rename_i edit plan edits plans
    rw [zip_cons_cons, zipIdx_cons, mapM_cons, bind_ok] at h
    obtain ⟨op, hop, h⟩ := h
    obtain ⟨rest, hrest, h⟩ := bind_ok.mp h
    cases h
    obtain ⟨hall, hnames, hmem⟩ := ih hpair.of_cons hrest
    have hspec := prepareOperation_spec hplan (wrapError_eq_ok.mp hop)
    have hname : (op.existing store edit).name ∈ Plan.names plan := by
      rw [hspec.name]
      exact mem_append_left _ (mem_map_of_mem (actual_mem hplan))
    refine ⟨.cons ⟨plan, hspec⟩ hall, .cons ?_ hnames, ?_⟩
    · intro other hoth heq
      obtain ⟨plan', hplan', hname'⟩ := hmem other hoth
      exact rel_of_pairwise_cons hpair hplan' _ hname (by rw [heq]; exact hname')
    intro other hoth
    rcases mem_cons.mp hoth with rfl | hoth
    · exact ⟨plan, .head _, hname⟩
    · obtain ⟨plan', hplan', hname'⟩ := hmem other hoth
      exact ⟨plan', .tail _ hplan', hname'⟩

lemma parsePacked_replacementFor {format : ObjectFormat} {path : Path} {bs : Bytes}
    (h : parsePacked format bs path = .ok packed) (ops : List Operation) :
    ∃ packed', parsePacked format (replacementFor format bs ops) path = .ok packed' ∧
      ∀ key, packed'.get key =
        if ∃ op ∈ ops, op.packedRemoved ∧ op.name.bytes = key then none
        else packed.get key := by
  unfold replacementFor
  induction ops generalizing bs packed with
  | nil => exact ⟨packed, h, by simp⟩
  | cons op ops ih =>
    by_cases hrem : op.packedRemoved
    · obtain ⟨next, hnext, hget⟩ := @parsePacked_withoutRef _ _ _ _ op.name h
      obtain ⟨packed', hpack', hget'⟩ := ih hnext
      refine ⟨packed', ?_, ?_⟩
      · rw [filter_cons_of_pos hrem, foldl_cons]
        exact hpack'
      intro key
      rw [hget', hget]
      by_cases hkey : op.name.bytes = key
      · simp [hkey, hrem]
      · have hkey' : key ≠ op.name.bytes := fun heq => hkey heq.symm
        simp [hkey, hkey']
    · obtain ⟨packed', hpack', hget'⟩ := ih h
      refine ⟨packed', ?_, ?_⟩
      · rw [filter_cons_of_neg hrem]
        exact hpack'
      · intro key
        rw [hget']
        simp [hrem]

/-- What a successful preparation hands to publication. -/
structure Ready (refs : References) (ident : LogIdentity) (store : Files.Store) (edits : List RefEdit)
    (snap : Snapshot) (prepared : Prepared) : Prop where
  loaded : loadPacked refs store = .ok snap
  operations : List.Forall₂ (fun edit operation =>
    ∃ plan, OperationOf refs ident store snap.records edit plan operation) edits prepared.operations
  distinct : prepared.operations.Pairwise (fun a b => a.name ≠ b.name)
  replacement : prepared.operations.any Operation.packedRemoved = true →
    prepared.replacement = replacementFor refs.format snap.bytes prepared.operations

lemma prepare_ready {prepared : Prepared}
    (h : Files.prepare refs ident store edits = .ok prepared) :
    ∃ snap, Ready refs ident store edits snap prepared := by
  simp only [Files.prepare, bind_ok, wrapError_eq_ok] at h
  obtain ⟨snap, hload, ⟨plans, names⟩, hpla, -, -, operations, hope, -, -, h⟩ := h
  cases h
  obtain ⟨plans', hpla', hall, hpair, -⟩ := planEdits_spec hload hpla
  subst hpla'
  obtain ⟨hall', hdis, -⟩ := prepareOperations_spec hall hpair hope
  exact ⟨snap, hload, hall', hdis, fun hany => if_pos hany⟩

end Plans

end Girt.Proofs
