import Girt.Lib.Metered
import Girt.Proofs.Refspec

/-!
# What pruning selects

Pruning selects the local references that have a source which is not excluded and of whose sources none is
advertised or retained.
-/

namespace Girt.Proofs
open ByteLib MeteredLib Girt.Refs Girt.Remote Girt.Remote.Budget List

/-- The budget of a mapping: its smallest counter, whether it is never cancelled, and its errors. -/
def mappingMeter : Meter Budget MappingError where
  level budget := min budget.work (min budget.mappings budget.bytes)
  ready budget := ∀ n, budget.cancel n = false
  refusal e := (∃ what, e = .limit what) ∨ e = .cancelled

section Primitives

variable {fits : Prop}

lemma debit_eq_ok {rem amount left : Nat} {what : String} :
    debit rem amount what = .ok left ↔ amount ≤ rem ∧ left = rem - amount := by
  unfold debit
  split_ifs with hle
  · simp [hle, eq_comm]
  · simp [hle]

lemma debit_error {rem amount : Nat} {what : String} {e : MappingError}
    (h : debit rem amount what = .error e) : e = .limit what := by
  unfold debit at h
  split_ifs at h
  cases h
  rfl

lemma computes_poll : Computes mappingMeter fits poll () := by
  refine ⟨fun _ _ _ _ => rfl, fun s e h => ?_, fun _ => ⟨0, fun s hrdy _ => ?_⟩⟩
  · unfold poll at h
    split_ifs at h
    cases h
    exact Or.inr rfl
  · refine ⟨{ s with cancel := fun n => s.cancel (n + 1) }, ?_, fun n => hrdy (n + 1), le_rfl⟩
    unfold poll
    rw [hrdy 0]
    rfl

lemma computes_debitWork (amount : Nat) : Computes mappingMeter fits (debitWork amount) () := by
  refine ⟨fun _ _ _ _ => rfl, fun s e h => ?_, fun _ => ⟨amount, fun s hrdy hlev => ?_⟩⟩
  · obtain herr | ⟨_, -, ⟨⟩⟩ := bind_error.mp h
    exact .inl ⟨_, debit_error herr⟩
  · have hle : amount ≤ s.work := hlev.trans (min_le_left _ _)
    refine ⟨{ s with work := s.work - amount }, ?_, hrdy, ?_⟩
    · exact bind_ok.mpr ⟨_, debit_eq_ok.mpr ⟨hle, rfl⟩, rfl⟩
    · simp only [mappingMeter]
      omega

lemma computes_tick : Computes mappingMeter fits tick () := by
  have hpol : Computes mappingMeter fits
      (do poll; modify ({ · with remaining := 64 }) : Budgeted Unit) () := by
    refine computes_poll.bind ⟨fun _ _ _ _ => rfl, ?_, fun _ => ⟨0, fun s hrdy _ => ⟨_, rfl, hrdy, le_rfl⟩⟩⟩
    rintro s e ⟨⟩
  refine ⟨fun _ _ _ _ => rfl, fun s e h => ?_, fun hfits => ?_⟩
  · unfold tick at h
    split_ifs at h
    exact hpol.failure s e h
  obtain ⟨cost, hcost⟩ := hpol.enough hfits
  refine ⟨cost, fun s hrdy hlev => ?_⟩
  unfold tick
  split_ifs
  · exact hcost s hrdy hlev
  · exact ⟨_, rfl, hrdy, by simp [mappingMeter]⟩

lemma computes_step : Computes mappingMeter fits step () := (computes_debitWork 1).bind computes_tick

lemma computes_comparison (pat name : Bytes) :
    Computes mappingMeter fits (comparison pat name) () :=
  computes_step.bind ((computes_debitWork _).bind (computes_debitWork _))

lemma computes_report (amount : Nat) : Computes mappingMeter fits (report amount) () := by
  refine ⟨fun _ _ _ _ => rfl, fun s e h => ?_, fun _ => ⟨amount + 1, fun s hrdy hlev => ?_⟩⟩
  · obtain herr | ⟨_, -, h⟩ := bind_error.mp h
    · exact .inl ⟨_, debit_error herr⟩
    obtain herr | ⟨_, -, ⟨⟩⟩ := bind_error.mp h
    exact .inl ⟨_, debit_error herr⟩
  · simp only [mappingMeter] at hlev
    refine ⟨{ s with mappings := s.mappings - 1, bytes := s.bytes - amount }, ?_, hrdy, ?_⟩
    · exact bind_ok.mpr ⟨_, debit_eq_ok.mpr ⟨by omega, rfl⟩,
        bind_ok.mpr ⟨_, debit_eq_ok.mpr ⟨by omega, rfl⟩, rfl⟩⟩
    · simp only [mappingMeter]
      omega

lemma computes_guard {α : Type} {p : Prop} [Decidable p] {what : String} {f g : Budgeted α} {a : α}
    (hp : fits → ¬ p)
    (hf : ∀ s, f s = .error (.limit what)) (hg : Computes mappingMeter fits g a) :
    Computes mappingMeter fits (if p then f else g) a := by
  split_ifs with h
  · refine ⟨fun s b s' hok => ?_, fun s e herr => ?_, fun hfits => absurd h (hp hfits)⟩
    · rw [hf s] at hok
      cases hok
    · rw [hf s] at herr
      cases herr
      exact Or.inl ⟨what, rfl⟩
  · exact hg

end Primitives

section Searching

variable {specs : Refspecs} {dest : RefName}

lemma length_of_captured {pat cap name : Bytes} {star : Nat}
    (h : captured pat star name = some cap) : cap.length ≤ name.length := by
  rw [captured_eq_some.mp h, substituted, length_append, length_append]
  omega

lemma computes_reverseSource (spec : Refspec) (dest : RefName) :
    Computes mappingMeter (spec.source.length + dest.bytes.length ≤ usizeMax) (reverseSource spec dest)
      (spec.sourceForDestination dest) := by
  unfold reverseSource Refspec.sourceForDestination
  split_ifs with hneg
  · exact computes_pure none
  cases hpat : spec.destination with
  | none => exact computes_pure none
  | some pat =>
    refine (computes_comparison _ _).bind ?_
    simp only [Option.bind_some]
    cases hcap : capturedBy pat dest.bytes with
    | none => exact computes_pure none
    | some cap =>
      have hlen : cap.length ≤ dest.bytes.length := by
        unfold capturedBy at hcap
        split at hcap
        · exact length_of_captured hcap
        · split_ifs at hcap
          cases hcap
          exact Nat.zero_le _
      refine (computes_comparison _ _).bind ?_
      simp only [Option.map_some, filled]
      cases hstar : starAt spec.source with
      | none => exact (computes_report _).bind (computes_pure _)
      | some star =>
        have hpos : spec.source.length ≠ 0 := by
          obtain ⟨hlt, -⟩ := findIdx?_eq_some_iff_getElem.mp hstar
          omega
        refine computes_guard (fun hfits => ?_) (fun _ => rfl) ((computes_report _).bind (computes_pure _))
        rw [not_or, not_lt]
        exact ⟨hpos, by omega⟩

variable {fits : Prop}

lemma computes_isExcluded (src : Bytes) (l : List Refspec) :
    Computes mappingMeter fits (isExcluded src l)
      (l.any (fun spec => spec.negative && (spec.capture src).isSome)) := by
  induction l with
  | nil => exact computes_pure false
  | cons spec l ih =>
    rw [any_cons]
    refine computes_step.bind ?_
    cases hneg : spec.negative with
    | false => exact ih
    | true =>
      refine (computes_comparison _ _).bind ?_
      cases hcap : (spec.capture src).isSome with
      | false => exact ih
      | true => exact computes_pure true

lemma computes_collectAdvertised (refs : List AdvertisedRef) :
    Computes mappingMeter fits (collectAdvertised refs)
      ((refs.filter (·.kind = .tip)).map (·.name.bytes)) := by
  induction refs with
  | nil => exact computes_pure []
  | cons reference refs ih =>
    refine computes_step.bind ?_
    by_cases htip : reference.kind = .tip
    · rw [if_pos htip, filter_cons_of_pos (by simpa using htip)]
      exact (computes_comparison _ _).bind (ih.bind (computes_pure _))
    · rw [if_neg htip, filter_cons_of_neg (by simpa using htip)]
      exact ih

/-- The sources of a destination that refspecs of a list give and that are not excluded. -/
def sourcesIn (specs : Refspecs) (destination : RefName) (l : List Refspec) : List Bytes :=
  (l.filterMap (fun spec => spec.sourceForDestination destination)).filter (fun source => !specs.excluded source)

lemma computes_ownership (specs : Refspecs) (advertised retained : List Bytes) (dest : RefName) (l : List Refspec)
    (owned : Bool) (hfits : ∀ spec ∈ l, fits → spec.source.length + dest.bytes.length ≤ usizeMax) :
    Computes mappingMeter fits (ownership specs advertised retained dest l owned)
      (owned || !(sourcesIn specs dest l).isEmpty,
        (sourcesIn specs dest l).any (fun src => advertised.contains src || retained.contains src)) := by
  induction l generalizing owned with
  | nil =>
    unfold ownership sourcesIn
    rw [filterMap_nil, filter_nil, isEmpty_nil, Bool.not_true, Bool.or_false]
    exact computes_pure _
  | cons spec l ih =>
    have hfits' : ∀ spec ∈ l, fits → spec.source.length + dest.bytes.length ≤ usizeMax :=
      fun other hoth => hfits other (.tail _ hoth)
    refine computes_step.bind ?_
    refine ((computes_reverseSource spec dest).of_imp (hfits spec (.head _))).bind ?_
    cases hfrom : spec.sourceForDestination dest with
    | none =>
      have hsame : sourcesIn specs dest (spec :: l) = sourcesIn specs dest l := by
        rw [sourcesIn, @filterMap_cons_none _ _ (fun spec : Refspec => spec.sourceForDestination dest) _ _ hfrom, ← sourcesIn]
      rw [hsame]
      exact ih owned hfits'
    | some src =>
      refine (computes_isExcluded src specs.specs).bind ?_
      cases hexc : specs.excluded src with
      | true =>
        have hsame : sourcesIn specs dest (spec :: l) = sourcesIn specs dest l := by
          rw [sourcesIn, @filterMap_cons_some _ _ (fun spec : Refspec => spec.sourceForDestination dest) _ _ _ hfrom,
            filter_cons_of_neg (by simp [hexc]), ← sourcesIn]
        rw [Refspecs.excluded] at hexc
        rw [hsame, hexc]
        exact ih owned hfits'
      | false =>
        have hmore : sourcesIn specs dest (spec :: l) = src :: sourcesIn specs dest l := by
          rw [sourcesIn, @filterMap_cons_some _ _ (fun spec : Refspec => spec.sourceForDestination dest) _ _ _ hfrom,
            filter_cons_of_pos (by simp [hexc]), ← sourcesIn]
        rw [Refspecs.excluded] at hexc
        rw [hmore, hexc, isEmpty_cons, Bool.not_false, Bool.or_true, any_cons]
        refine (computes_comparison _ _).bind ?_
        cases hgot : (advertised.contains src || retained.contains src) with
        | true => exact computes_pure _
        | false => exact ih true hfits'

def isPruned (specs : Refspecs) (advertised retained : List Bytes) (destination : RefName) : Bool :=
  !(specs.pruneSources destination).isEmpty &&
    !(specs.pruneSources destination).any (fun source => advertised.contains source || retained.contains source)

lemma computes_pruneLoop (specs : Refspecs) (advertised retained : List Bytes) (dests : List RefName)
    (hfits : ∀ dest ∈ dests, ∀ spec ∈ specs.specs, fits →
      spec.source.length + dest.bytes.length ≤ usizeMax) :
    Computes mappingMeter fits (pruneLoop specs advertised retained dests)
      (dests.filter (isPruned specs advertised retained)) := by
  induction dests with
  | nil => exact computes_pure []
  | cons dest rest ih =>
    refine computes_step.bind ?_
    refine (computes_ownership specs advertised retained dest specs.specs false
      (hfits dest (.head _))).bind ?_
    refine (ih (fun other hoth => hfits other (.tail _ hoth))).bind ?_
    rw [filter_cons]
    exact computes_pure _

lemma computes_countInput (left : Nat) (names : List Bytes)
    (hfits : fits → (names.map List.length).sum ≤ left) :
    Computes mappingMeter fits (countInput left names) () := by
  induction names generalizing left with
  | nil => exact computes_pure ()
  | cons name names ih =>
    refine computes_step.bind ?_
    by_cases hle : name.length ≤ left
    · have hdeb : debit left name.length "input bytes" = .ok (left - name.length) := debit_eq_ok.mpr ⟨hle, rfl⟩
      rw [hdeb]
      refine (computes_pure (left - name.length)).bind (ih _ (fun hf => ?_))
      have hsum := hfits hf
      rw [map_cons, sum_cons] at hsum
      omega
    · have hdeb : debit left name.length "input bytes" = .error (.limit "input bytes") := by
        unfold debit
        rw [if_neg hle]
      rw [hdeb]
      refine ⟨fun _ _ _ _ => rfl, ?_, fun hf => ?_⟩
      · rintro s e ⟨⟩
        exact Or.inl ⟨_, rfl⟩
      · have hsum := hfits hf
        rw [map_cons, sum_cons] at hsum
        omega

end Searching

section Pruning

variable {lim : MappingLimits} {specs : Refspecs} {dests : List RefName} {adv : Advertisement}
  {retained : List Bytes} {cancel : Nat → Bool} {pruned : List RefName}

def tipNames (adv : Advertisement) : List Bytes :=
  (adv.refs.filter (fun reference => reference.kind = .tip)).map (fun reference => reference.name.bytes)

def inputNames (specs : Refspecs) (dests : List RefName) (adv : Advertisement) (retained : List Bytes) :
    List Bytes :=
  specs.specs.map (fun spec => spec.raw) ++ (adv.refs.map (fun reference => reference.name.bytes) ++
    dests.map (fun name => name.bytes) ++ retained)

def Admits (lim : MappingLimits) (specs : Refspecs) (dests : List RefName) (adv : Advertisement)
    (retained : List Bytes) : Prop :=
  adv.refs.length + dests.length + retained.length ≤ lim.maxSources ∧
    specs.specs.length ≤ lim.maxSpecs ∧
    ((inputNames specs dests adv retained).map List.length).sum ≤ lim.maxInputBytes

def SizesFit (specs : Refspecs) (dests : List RefName) (adv : Advertisement) (retained : List Bytes) : Prop :=
  adv.refs.length + dests.length + retained.length ≤ usizeMax ∧
    ∀ destination ∈ dests, ∀ spec ∈ specs.specs, spec.source.length + destination.bytes.length ≤ usizeMax

/-- The part of pruning that draws on the budget. -/
def pruneRun (lim : MappingLimits) (specs : Refspecs) (dests : List RefName) (adv : Advertisement)
    (retained : List Bytes) : Budgeted (List RefName) := do
  admitInput lim specs (adv.refs.length + dests.length + retained.length)
    (adv.refs.map (fun reference => reference.name.bytes) ++ dests.map (fun name => name.bytes) ++ retained)
  let advertised ← collectAdvertised adv.refs
  let pruned ← pruneLoop specs advertised retained dests
  poll
  pure pruned

lemma computes_pruneRun : Computes mappingMeter
    (SizesFit specs dests adv retained ∧ Admits lim specs dests adv retained)
    (pruneRun lim specs dests adv retained)
    (dests.filter (isPruned specs (tipNames adv) retained)) := by
  refine Computes.bind (a := ()) ?_ ((computes_collectAdvertised _).bind ((computes_pruneLoop specs _ retained dests
    (fun dest hdest spec hspec hfits => hfits.1.2 dest hdest spec hspec)).bind
      (computes_poll.bind (computes_pure _))))
  refine computes_guard (not_lt.mpr ·.2.1) (fun _ => rfl) ?_
  refine computes_guard (not_lt.mpr ·.2.2.1) (fun _ => rfl) ?_
  exact computes_countInput _ _ (·.2.2.2)

lemma pruneCandidates_eq : pruneCandidates lim specs dests adv retained cancel = (do
    let bud ← Budget.new lim cancel
    reject (specs.direction ≠ .fetch) .direction
    reject (usizeMax < adv.refs.length + dests.length + retained.length) (.limit "sources")
    let res ← pruneRun lim specs dests adv retained bud
    pure res.1) := rfl

lemma pruneCandidates_value (h : pruneCandidates lim specs dests adv retained cancel = .ok pruned) :
    pruned = dests.filter (isPruned specs (tipNames adv) retained) := by
  simp only [pruneCandidates_eq, bind_ok] at h
  obtain ⟨bud, -, _, -, _, -, ⟨val, bud'⟩, hrun, h⟩ := h
  cases h
  exact computes_pruneRun.value bud val bud' hrun

lemma mem_pruneSources {src : Bytes} {dest : RefName} : src ∈ specs.pruneSources dest ↔
    (∃ spec ∈ specs.specs, Sends spec src dest) ∧ specs.excluded src = false := by
  rw [Refspecs.pruneSources, mem_filter, mem_filterMap, Bool.not_eq_true']
  refine and_congr_left' ⟨?_, ?_⟩
  · rintro ⟨spec, hspec, hfrom⟩
    exact ⟨spec, hspec, (sourceForDestination_eq_some (specs.parsed spec hspec)).mp hfrom⟩
  · rintro ⟨spec, hspec, hsen⟩
    exact ⟨spec, hspec, (sourceForDestination_eq_some (specs.parsed spec hspec)).mpr hsen⟩

lemma isPruned_iff {dest : RefName} : isPruned specs (tipNames adv) retained dest ↔
    (∃ spec ∈ specs.specs, ∃ src, Sends spec src dest ∧ specs.excluded src = false) ∧
      ∀ spec ∈ specs.specs, ∀ src, Sends spec src dest → specs.excluded src = false →
        src ∉ tipNames adv ∧ src ∉ retained := by
  unfold isPruned
  rw [Bool.and_eq_true, Bool.not_eq_true', Bool.not_eq_true', isEmpty_eq_false_iff_exists_mem,
    any_eq_false]
  refine and_congr ⟨?_, ?_⟩ ⟨?_, ?_⟩
  · rintro ⟨src, hfrom⟩
    obtain ⟨⟨spec, hspec, hsen⟩, hexc⟩ := mem_pruneSources.mp hfrom
    exact ⟨spec, hspec, src, hsen, hexc⟩
  · rintro ⟨spec, hspec, src, hsen, hexc⟩
    exact ⟨src, mem_pruneSources.mpr ⟨⟨spec, hspec, hsen⟩, hexc⟩⟩
  · intro hnone spec hspec src hsen hexc
    have hfree := hnone src (mem_pruneSources.mpr ⟨⟨spec, hspec, hsen⟩, hexc⟩)
    rw [Bool.or_eq_true, contains_iff_mem, contains_iff_mem, not_or] at hfree
    exact hfree
  · intro hfree src hfrom
    obtain ⟨⟨spec, hspec, hsen⟩, hexc⟩ := mem_pruneSources.mp hfrom
    rw [Bool.or_eq_true, contains_iff_mem, contains_iff_mem, not_or]
    exact hfree spec hspec src hsen hexc

lemma pruneCandidates_error {e : MappingError} (hfet : specs.direction = .fetch)
    (h : pruneCandidates lim specs dests adv retained cancel = .error e) :
    (∃ what, e = .limit what) ∨ e = .cancelled := by
  have hrej : ∀ {p : Prop} [Decidable p] {e e' : MappingError}, reject p e' = .error e → p ∧ e = e' := by
    intro p _ e e' h
    unfold reject at h
    split_ifs at h with hp
    cases h
    exact ⟨hp, rfl⟩
  rw [pruneCandidates_eq] at h
  obtain herr | ⟨bud, -, h⟩ := bind_error.mp h
  · unfold Budget.new at herr
    split_ifs at herr
    cases herr
    exact .inr rfl
  obtain herr | ⟨_, -, h⟩ := bind_error.mp h
  · exact absurd hfet (hrej herr).1
  obtain herr | ⟨_, -, h⟩ := bind_error.mp h
  · exact .inl ⟨_, (hrej herr).2⟩
  obtain herr | ⟨_, -, ⟨⟩⟩ := bind_error.mp h
  exact computes_pruneRun.failure _ _ herr

/-- The limits that admit the input, with others for the work. -/
def withWork (lim : MappingLimits) (mappings bytes work : Nat) : MappingLimits :=
  { lim with maxMappings := mappings, maxOutputBytes := bytes, maxWork := work }

lemma pruneCandidates_enough (hfet : specs.direction = .fetch) (hsiz : SizesFit specs dests adv retained)
    (hadm : Admits lim specs dests adv retained) :
    ∃ enough, ∀ mappings bs work, enough ≤ mappings → enough ≤ bs → enough ≤ work → ∀ cancel, (∀ n, cancel n = false) →
      ∃ pruned, pruneCandidates (withWork lim mappings bs work) specs dests adv retained cancel =
        .ok pruned := by
  obtain ⟨enough, hrun⟩ := (@computes_pruneRun lim specs dests adv retained).enough ⟨hsiz, hadm⟩
  refine ⟨enough, fun mappings bs work hmap hbs hwork cancel hcan => ?_⟩
  obtain ⟨bud, hok, -, -⟩ := hrun ⟨fun n => cancel (n + 1), 64, mappings, bs, work⟩ (fun n => hcan (n + 1))
    (le_min hwork (le_min hmap hbs))
  refine ⟨_, bind_ok.mpr ⟨_, if_neg (by rw [hcan 0]; decide), reject_bind.mpr ⟨(not_not.mpr hfet),
    reject_bind.mpr ⟨(not_lt.mpr hsiz.1), bind_ok.mpr ⟨_, hok, rfl⟩⟩⟩⟩⟩

/-- Reverse mapping finds exactly the sources that forward mapping sends to a destination, and pruning
selects exactly the local references that have a source which is not excluded and of whose sources none
is advertised or retained. So it never selects one that the advertisement is mapped to. -/
theorem prune_exact (specs : Refspecs) (hfetch : specs.direction = .fetch) (destinations : List RefName)
    (advertisement : Advertisement) (retained : List Bytes) :
    (∀ spec ∈ specs.specs, ∀ destination source,
      spec.sourceForDestination destination = some source ↔ Sends spec source destination) ∧
    (∀ limits cancel pruned, pruneCandidates limits specs destinations advertisement retained cancel = .ok pruned →
      (∀ destination, destination ∈ pruned ↔ destination ∈ destinations ∧
        (∃ spec ∈ specs.specs, ∃ source, Sends spec source destination ∧ specs.excluded source = false) ∧
        ∀ spec ∈ specs.specs, ∀ source, Sends spec source destination → specs.excluded source = false →
          source ∉ tipNames advertisement ∧ source ∉ retained) ∧
      ∀ mappings missing, specs.mapAdvertisementWithMissing advertisement = .ok (mappings, missing) →
        ∀ mapping ∈ mappings, ∀ destination ∈ mapping.destination, destination ∉ pruned) ∧
    (∀ limits cancel e, pruneCandidates limits specs destinations advertisement retained cancel = .error e →
      (∃ what, e = .limit what) ∨ e = .cancelled) ∧
    (SizesFit specs destinations advertisement retained → ∀ limits, Admits limits specs destinations advertisement retained →
      ∃ enough, ∀ mappings bytes work, enough ≤ mappings → enough ≤ bytes → enough ≤ work →
        ∀ cancel, (∀ n, cancel n = false) → ∃ pruned, pruneCandidates (withWork limits mappings bytes work) specs
          destinations advertisement retained cancel = .ok pruned) := by
  refine ⟨fun spec hspec destination source => sourceForDestination_eq_some (specs.parsed spec hspec),
    fun limits cancel pruned h => ?_, fun limits cancel e => pruneCandidates_error hfetch,
    fun hsiz limits hadm => pruneCandidates_enough hfetch hsiz hadm⟩
  have hmem : ∀ destination, destination ∈ pruned ↔ destination ∈ destinations ∧
      isPruned specs (tipNames advertisement) retained destination = true := by
    intro destination
    rw [pruneCandidates_value h, mem_filter]
  refine ⟨fun destination => by rw [hmem, isPruned_iff], ?_⟩
  intro mappings missing hmap mapping hmapped destination hdest hpru
  have hmap' := (bind_ok.mp hmap).choose_spec.2
  obtain ⟨source, hfrom, spec, hspec, hexc, hsen⟩ := mapWithMissing_selected hfetch hmap' mapping hmapped
  obtain ⟨-, hfree⟩ := isPruned_iff.mp ((hmem destination).mp hpru).2
  refine (hfree spec hspec _ (hsen destination hdest) hexc).1 ?_
  obtain ⟨reference, href, rfl⟩ := mem_map.mp hfrom
  exact mem_map.mpr ⟨reference, href, rfl⟩

end Pruning

def sampleSpecs : Refspecs :=
  ⟨.fetch, [⟨ascii "refs/heads/*:refs/remotes/o/*", ascii "refs/heads/*", some (ascii "refs/remotes/o/*"), false, false, true⟩,
    ⟨ascii "^refs/heads/wip", ascii "refs/heads/wip", none, false, true, false⟩], by decide +kernel⟩

def sampleName (text : String) (h : validRefName (ascii text) = true) : RefName := ⟨ascii text, h⟩

theorem prune_exact_sample : ∃ pruned,
    pruneCandidates .default sampleSpecs [sampleName "refs/remotes/o/main" (by decide +kernel)] ⟨[]⟩ [] (fun _ => false) =
      .ok pruned ∧ ∀ destination ∈ pruned, ∃ spec ∈ sampleSpecs.specs, ∃ source, Sends spec source destination := by
  have hrun : pruneCandidates .default sampleSpecs [sampleName "refs/remotes/o/main" (by decide +kernel)] ⟨[]⟩ []
      (fun _ => false) = .ok [sampleName "refs/remotes/o/main" (by decide +kernel)] := by
    decide +kernel
  refine ⟨_, hrun, fun destination hmem => ?_⟩
  obtain ⟨-, ⟨spec, hspec, source, hsen, -⟩, -⟩ :=
    ((prune_exact sampleSpecs rfl [_] ⟨[]⟩ []).2.1 _ _ _ hrun).1 destination |>.mp hmem
  exact ⟨spec, hspec, source, hsen⟩

/-- A local reference that a positive refspec owns is kept if its only source is excluded, though no
source of it is advertised or retained. -/
theorem prune_keeps_excluded :
    sampleSpecs.specs.any (fun spec => (spec.sourceForDestination (sampleName "refs/remotes/o/wip" (by decide +kernel))).isSome) =
      true ∧
    (pruneCandidates .default sampleSpecs [sampleName "refs/remotes/o/wip" (by decide +kernel)] ⟨[]⟩ []
      (fun _ => false)).toOption = some [] := by
  decide +kernel

end Girt.Proofs
