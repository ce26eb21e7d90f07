import Girt.Remote.Controlled

/-!
# Forward and reverse mapping

The source that reverse mapping finds is the one that forward mapping sends to the destination.
-/

namespace Girt.Proofs
open ByteLib Girt.Refs Girt.Remote List

section Patterns

variable {pat name bytes rest : Bytes} {star : Nat} {capture : Bytes}

lemma stripStart_eq_some {start : Bytes} :
    stripStart start bytes = some rest ↔ bytes = start ++ rest := by
  unfold stripStart
  constructor
  · intro h
    split_ifs at h with hst
    obtain ⟨tail, rfl⟩ := isPrefixOf_iff_prefix.mp hst
    rw [drop_left] at h
    cases h
    rfl
  · rintro rfl
    rw [if_pos (List.isPrefixOf_iff_prefix.mpr (prefix_append _ _)), drop_left]

lemma stripEnd_eq_some {stop : Bytes} : stripEnd stop bytes = some rest ↔ bytes = rest ++ stop := by
  unfold stripEnd
  constructor
  · intro h
    split_ifs at h with hstop
    obtain ⟨head, rfl⟩ := isSuffixOf_iff_suffix.mp hstop
    rw [length_append, Nat.add_sub_cancel, take_left] at h
    cases h
    rfl
  · rintro rfl
    rw [if_pos (isSuffixOf_iff_suffix.mpr (suffix_append _ _)), length_append, Nat.add_sub_cancel,
      take_left]

lemma captured_eq_some :
    captured pat star name = some capture ↔ name = substituted pat star capture := by
  unfold captured substituted
  rw [Option.bind_eq_some_iff]
  simp only [stripStart_eq_some, stripEnd_eq_some]
  constructor
  · rintro ⟨middle, rfl, rfl⟩
    rw [append_assoc]
  · rintro rfl
    exact ⟨capture ++ pat.drop (star + 1), by rw [append_assoc], rfl⟩

lemma starAt_eq_none : starAt pat = none ↔ stars pat = 0 := by
  unfold starAt stars
  simp

end Patterns

section Specs

variable {direction : Direction} {spec : Refspec} {src : Bytes} {destination : RefName}

lemma parse_cases {bytes : Bytes} (h : Refspec.parse direction bytes = .ok spec) :
    (direction = .fetch → spec.source ≠ []) ∧
      stars spec.source ≤ 1 ∧ (spec.wildcard ↔ stars spec.source = 1) ∧
      (spec.negative = false → (spec.destination.map stars).getD 0 = stars spec.source) := by
  simp only [Refspec.parse, bind_ok, reject_ok] at h
  obtain ⟨_, _, _, _, _, _, destination, _, _, hfrom, _, hsta, _, _, h⟩ := h
  cases h
  rw [not_or, not_or, not_lt, not_lt] at hsta
  obtain ⟨hone, -, heql⟩ := hsta
  refine ⟨fun hfet hnil => hfrom ⟨hnil, hfet⟩, hone, by simp, fun hpos => ?_⟩
  by_contra hne
  exact heql ⟨by rw [Bool.not_eq_true']; exact hpos, Ne.symm hne⟩

lemma new_eq_some_iff {bytes : Bytes} :
    RefName.new bytes = some destination ↔ destination.bytes = bytes := by
  constructor
  · exact RefName.new_eq_some
  · rintro rfl
    exact RefName.new_bytes destination

def Sends (spec : Refspec) (source : Bytes) (destination : RefName) : Prop :=
  spec.negative = false ∧ ∃ capture, spec.capture source = some capture ∧ spec.destinationFor capture = .ok (some destination)

lemma sourceForDestination_eq_some {bytes : Bytes} (h : Refspec.parse direction bytes = .ok spec) :
    spec.sourceForDestination destination = some src ↔ Sends spec src destination := by
  obtain ⟨-, hone, hwil, heql⟩ := parse_cases h
  unfold Refspec.sourceForDestination Sends Refspec.capture Refspec.destinationFor
  cases hneg : spec.negative with
  | true => simp
  | false =>
    have hsta := heql hneg
    cases hglob : spec.destination with
    | none => simp
    | some pat =>
      rw [hglob] at hsta
      change stars pat = stars spec.source at hsta
      cases hfrom : starAt spec.source with
      | none =>
        have hzero := starAt_eq_none.mp hfrom
        have hpat : starAt pat = none := starAt_eq_none.mpr (hsta.trans hzero)
        have hex : spec.wildcard = false := by
          rw [Bool.eq_false_iff, Ne, hwil, hzero]
          decide
        simp only [capturedBy, filled, hfrom, hpat, hex, Bool.false_eq_true, if_false,
          Option.bind_some, true_and]
        constructor
        · intro hmap
          obtain ⟨capture, hcap, rfl⟩ := Option.map_eq_some_iff.mp hmap
          split_ifs at hcap with hsame
          refine ⟨[], by rw [if_pos rfl], ?_⟩
          rw [new_eq_some_iff.mpr hsame.symm]
        · rintro ⟨capture, hcap, hdest⟩
          split_ifs at hcap with hsame
          subst hsame
          split at hdest
          · cases hdest
          rename_i name hname
          cases hdest
          rw [if_pos (new_eq_some_iff.mp hname).symm]
          rfl
      | some star =>
        have hne : stars spec.source ≠ 0 := fun hzero => by
          rw [starAt_eq_none.mpr hzero] at hfrom
          cases hfrom
        obtain ⟨patternStar, hpat⟩ : ∃ patternStar, starAt pat = some patternStar := by
          rw [← Option.isSome_iff_exists, Option.isSome_iff_ne_none, Ne, starAt_eq_none, hsta]
          exact hne
        have hwild : spec.wildcard := hwil.mpr (by omega)
        simp only [capturedBy, filled, hfrom, hpat, hwild, if_true, Option.bind_some, true_and]
        constructor
        · intro hmap
          obtain ⟨capture, hcap, rfl⟩ := Option.map_eq_some_iff.mp hmap
          refine ⟨capture, captured_eq_some.mpr rfl, ?_⟩
          rw [new_eq_some_iff.mpr (captured_eq_some.mp hcap)]
        · rintro ⟨capture, hcap, hdest⟩
          split at hdest
          · cases hdest
          rename_i name hname
          cases hdest
          rw [captured_eq_some.mpr (new_eq_some_iff.mp hname), captured_eq_some.mp hcap]
          rfl

end Specs

section Mappings

variable {specs : Refspecs} {spec : Refspec} {sources rest : List RefSource} {plan plan' : Plan} {mapping : Mapping}

/-- What a mapping of a fetch comes from: a source, and a refspec that sends it to the destination. -/
def Selected (specs : Refspecs) (sources : List RefSource) (mapping : Mapping) : Prop :=
  ∃ source ∈ sources, ∃ spec ∈ specs.specs, specs.excluded source.name.bytes = false ∧
    ∀ destination ∈ mapping.destination, Sends spec source.name.bytes destination

lemma mem_add (h : plan.add mapping = .ok plan') {other : Mapping} (hoth : other ∈ plan'.mappings) :
    other ∈ plan.mappings ∨ other = mapping := by
  unfold Plan.add at h
  split_ifs at h with hseen
  · cases h
    exact Or.inl hoth
  split at h
  · cases h
    exact (mem_append.mp hoth).imp_right mem_singleton.mp
  · split_ifs at h with htook
    cases h
    exact (mem_append.mp hoth).imp_right mem_singleton.mp

lemma selectSources_selected (hspec : spec ∈ specs.specs) (hpos : spec.negative = false)
    {st st' : Plan × Bool} (hsub : rest ⊆ sources) (h : specs.selectSources spec rest st = .ok st')
    (hsta : ∀ mapping ∈ st.1.mappings, Selected specs sources mapping) :
    ∀ mapping ∈ st'.1.mappings, Selected specs sources mapping := by
  induction rest generalizing st with
  | nil =>
    cases h
    exact hsta
  | cons src rest ih =>
    have hrest : rest ⊆ sources := fun x hx => hsub (.tail _ hx)
    unfold Refspecs.selectSources at h
    cases hcap : spec.capture src.name.bytes with
    | none =>
      rw [hcap] at h
      exact ih hrest h hsta
    | some capture =>
      simp only [hcap] at h
      split_ifs at h with hexc
      · exact ih hrest h hsta
      obtain ⟨destination, hdest, h⟩ := bind_ok.mp h
      obtain ⟨plan', hadd, h⟩ := bind_ok.mp h
      refine ih hrest h (fun mapping hmap => ?_)
      rcases mem_add hadd hmap with hold | rfl
      · exact hsta mapping hold
      refine ⟨src, hsub mem_cons_self, spec, hspec, by simpa using hexc, ?_⟩
      rintro name hname
      obtain rfl : destination = some name := hname
      exact ⟨hpos, capture, hcap, hdest⟩

lemma mapWithMissing_selected (hfet : specs.direction = .fetch) {mappings : List Mapping}
    {missing : List Bytes} (h : specs.mapWithMissing sources = .ok (mappings, missing)) :
    ∀ mapping ∈ mappings, Selected specs sources mapping := by
  simp only [Refspecs.mapWithMissing, bind_ok] at h
  obtain ⟨_, -, ⟨plan, missing'⟩, hfold, h⟩ := h
  cases h
  refine foldlM_induct (P := fun st : Plan × List Bytes => ∀ mapping ∈ st.1.mappings, Selected specs
    sources mapping)
    (fun st spec st' hmem hsta hstep => ?_) (fun mapping hmap => by cases hmap) hfold
  obtain ⟨hspec, hpos⟩ := mem_filter.mp hmem
  have hfrom := (parse_cases (specs.parsed spec hspec)).1 hfet
  rw [Refspecs.selectSpec, if_neg hfrom, bind_ok] at hstep
  obtain ⟨⟨plan', isMatched⟩, hsel, hstep⟩ := hstep
  cases hstep
  exact selectSources_selected hspec (by simpa using hpos) (fun _ hx => hx) hsel hsta

end Mappings

end Girt.Proofs
