import Mathlib.Data.List.Forall2
import Mathlib.Data.List.Lex
import Mathlib.Order.Basic
import Mathlib.Tactic.Common
import Mathlib.Tactic.Linarith
import Mathlib.Tactic.Ring

/-!
# Byte strings

Byte strings as lists, big-endian words of a given width, and the offset variable-length
integers in which every continuation byte adds one to the value read so far.
-/

namespace ByteLib

open List

variable {ε α β σ : Type} {l : List α} {r : List β} {f : σ → α → Except ε σ}
variable {x : Except ε α} {b : β} {e : ε} {a : α} {s s' : σ} {R : α → β → Prop} {width : Nat}

abbrev Bytes := List UInt8

instance bytesLawful : LawfulBEq Bytes := inferInstance

instance byteOrder : LinearOrder UInt8 where
  le_refl a := UInt8.le_refl a
  le_trans a b c := UInt8.le_trans
  le_antisymm a b := UInt8.le_antisymm
  le_total a b := UInt8.le_total a b
  lt_iff_le_not_ge a b := by
    rw [UInt8.lt_iff_toNat_lt, UInt8.le_iff_toNat_le, UInt8.le_iff_toNat_le]
    omega
  toDecidableLE := inferInstance
  toDecidableEq := inferInstance
  toDecidableLT := inferInstance

instance wordOrder : LinearOrder UInt64 where
  le_refl a := UInt64.le_refl a
  le_trans a b c := UInt64.le_trans
  le_antisymm a b := UInt64.le_antisymm
  le_total a b := UInt64.le_total a b
  lt_iff_le_not_ge a b := by
    rw [UInt64.lt_iff_toNat_lt, UInt64.le_iff_toNat_le, UInt64.le_iff_toNat_le]
    omega
  toDecidableLE := inferInstance
  toDecidableEq := inferInstance
  toDecidableLT := inferInstance

section Lex

variable {α : Type} [LinearOrder α] {d k k' : List α}

lemma le_of_isPrefix (h : d <+: k) : d ≤ k := by
  obtain ⟨t, rfl⟩ := h
  induction d with
  | nil => exact not_lt.mp (not_lt_nil _)
  | cons x d ih => exact cons_le_cons x ih

lemma isPrefix_of_le_of_le (hd : d ≤ k) (hk : k ≤ k') (h : d <+: k') : d <+: k := by
  obtain ⟨t, rfl⟩ := h
  induction d generalizing k with
  | nil => exact ⟨k, rfl⟩
  | cons x d ih =>
    cases k with
    | nil => exact absurd (nil_lt_cons x d) (not_lt.mpr hd)
    | cons y k =>
      have h1 : ¬ (y :: k < x :: d) := not_lt.mpr hd
      have h2 : ¬ (x :: (d ++ t) < y :: k) := not_lt.mpr hk
      rw [cons_lt_cons_iff, not_or, not_and] at h1 h2
      have hxy : x = y := le_antisymm (not_lt.mp h1.1) (not_lt.mp h2.1)
      subst hxy
      rw [cons_prefix_cons]
      exact ⟨rfl, ih (not_lt.mp (h1.2 rfl)) (not_lt.mp (h2.2 rfl))⟩

end Lex

lemma bind_ok {f : α → Except ε β} : (x >>= f) = .ok b ↔ ∃ a, x = .ok a ∧ f a = .ok b := by
  cases x with
  | error e | ok a => simp [bind, Except.bind]

lemma bind_error {f : α → Except ε β} :
    (x >>= f) = .error e ↔ x = .error e ∨ ∃ a, x = .ok a ∧ f a = .error e := by
  cases x <;> simp [bind, Except.bind]

lemma map_ok {f : α → β} : x.map f = .ok b ↔ ∃ a, x = .ok a ∧ f a = b := by
  cases x <;> simp [Except.map]

lemma exists_ok (h : x.isOk) : ∃ a, x = .ok a := by
  cases x with
  | error e => cases h
  | ok a => exact ⟨a, rfl⟩

lemma exists_snd_ok {x : σ × Except ε α} (h : x.2.isOk) : ∃ s a, x = (s, .ok a) := by
  obtain ⟨a, ha⟩ := exists_ok h
  exact ⟨x.1, a, Prod.ext rfl ha⟩

def reject {ε : Type} (p : Prop) [Decidable p] (e : ε) : Except ε Unit :=
  if p then .error e else .ok ()

@[simp] lemma reject_ok {p : Prop} [Decidable p] {u : Unit} :
    reject p e = .ok u ↔ ¬p := by
  by_cases hp : p <;> simp [reject, hp]

lemma reject_bind {p : Prop} [Decidable p] {f : Unit → Except ε β} :
    (reject p e >>= f) = .ok b ↔ ¬p ∧ f () = .ok b := by
  simp only [bind_ok, reject_ok]
  exact ⟨fun h => h.choose_spec, fun h => ⟨(), h⟩⟩

/-- A computation ends with `P`, or it fails and `F` is why. -/
def Settled (P : α → Prop) (F : Prop) : Except ε α → Prop
  | .ok a => P a
  | .error _ => F

section Settled

variable {P : α → Prop} {Q : β → Prop} {F G : Prop} {x : Except ε α} {f : α → Except ε β}

lemma Settled.bind (h : Settled P F x) (hF : F → G) (hf : ∀ a, P a → Settled Q G (f a)) :
    Settled Q G (x >>= f) := by
  cases x with
  | error e => exact hF h
  | ok a => exact hf a h

lemma Settled.mono {P' : α → Prop} (h : Settled P F x) (hF : F → G) (hP : ∀ a, P a → P' a) :
    Settled P' G x := by
  cases x with
  | error e => exact hF h
  | ok a => exact hP a h

lemma Settled.of_ok {a : α} (h : Settled P F x) (hx : x = .ok a) : P a := by
  subst hx
  exact h

lemma Settled.total (h : Settled P F x) (hF : ¬F) : ∃ a, x = .ok a ∧ P a := by
  cases x with
  | error e => exact absurd h hF
  | ok a => exact ⟨a, rfl, h⟩

lemma settled_reject {p : Prop} [Decidable p] {e : ε} {f : Unit → Except ε β} (hF : p → G)
    (hf : ¬p → Settled Q G (f ())) : Settled Q G (reject p e >>= f) := by
  by_cases hp : p
  · rw [reject, if_pos hp]
    exact hF hp
  · rw [reject, if_neg hp]
    exact hf hp

end Settled

/-- Errors of an inner computation seen from an outer one. -/
def wrapError {ε ε' α : Type} (f : ε → ε') : Except ε α → Except ε' α
  | .error e => .error (f e)
  | .ok a => .ok a

@[simp] lemma wrapError_eq_ok {ε' : Type} {f : ε → ε'} :
    wrapError f x = .ok a ↔ x = .ok a := by
  cases x <;> simp [wrapError]

lemma foldlM_induct {P : σ → Prop} (step : ∀ s a s', a ∈ l → P s → f s a = .ok s' → P s') (hs : P s)
    (h : l.foldlM f s = .ok s') : P s' := by
  induction l generalizing s with
  | nil =>
    cases h
    exact hs
  | cons a l ih =>
    rw [foldlM_cons, bind_ok] at h
    obtain ⟨t, ht, h⟩ := h
    have hnext : P t := step s a t (.head _) hs ht
    exact ih (fun s b s' hb => step s b s' (.tail _ hb)) hnext h

lemma foldlM_concat (l : List α) (a : α) (s : σ) :
    (l ++ [a]).foldlM f s = l.foldlM f s >>= (f · a) := by
  simp only [foldlM_append, foldlM_cons, foldlM_nil, bind_pure]

lemma foldlM_ok_of_mem (h : l.foldlM f s = .ok s') (ha : a ∈ l) : ∃ t t', f t a = .ok t' := by
  induction l generalizing s with
  | nil => cases ha
  | cons b l ih =>
    rw [foldlM_cons, bind_ok] at h
    obtain ⟨t, ht, h⟩ := h
    rcases mem_cons.mp ha with rfl | ha
    · exact ⟨s, t, ht⟩
    · exact ih h ha

lemma forM_eq_ok {f : α → Except ε Unit} : l.forM f = .ok () ↔ ∀ a ∈ l, f a = .ok () := by
  induction l with
  | nil =>
    simp
    rfl
  | cons b l ih =>
    have hcons : (b :: l).forM f = (f b >>= fun _ => l.forM f) := rfl
    rw [hcons, bind_ok, forall_mem_cons, ← ih]
    constructor
    · rintro ⟨⟨⟩, hb, hl⟩
      exact ⟨hb, hl⟩
    · rintro ⟨hb, hl⟩
      exact ⟨(), hb, hl⟩

lemma foldlM_append_eq_ok {l₁ l₂ : List α} {t : σ} (h₁ : l₁.foldlM f s = .ok t)
    (h₂ : l₂.foldlM f t = .ok s') : (l₁ ++ l₂).foldlM f s = .ok s' := by
  rw [foldlM_append, h₁]
  exact h₂

lemma mapM_eq_ok_congr {f g : α → Except ε β} (h : l.mapM f = .ok r)
    (hfg : ∀ a ∈ l, ∀ b, f a = .ok b → g a = .ok b) : l.mapM g = .ok r := by
  induction l generalizing r with
  | nil => exact h
  | cons a l ih =>
    rw [mapM_cons, bind_ok] at h
    obtain ⟨b, hb, h⟩ := h
    obtain ⟨rest, hrest, h⟩ := bind_ok.mp h
    rw [mapM_cons, hfg a mem_cons_self b hb]
    rw [ih hrest (fun a ha => hfg a (mem_cons_of_mem _ ha))]
    exact h

lemma forall₂_of_mapM_eq_ok {f : α → Except ε β} (h : l.mapM f = .ok r) :
    List.Forall₂ (f · = .ok ·) l r := by
  induction l generalizing r with
  | nil =>
    cases h
    exact .nil
  | cons a l ih =>
    rw [mapM_cons, bind_ok] at h
    obtain ⟨b, hb, h⟩ := h
    obtain ⟨rest, hrest, h⟩ := bind_ok.mp h
    cases h
    exact .cons hb (ih hrest)

lemma exists_of_filterMap_getElem? {f : α → Option β} {n : Nat} {y : β}
    (h : (l.filterMap f)[n]? = some y) :
    ∃ a x b, l = a ++ x :: b ∧ f x = some y ∧ (a.filterMap f).length = n := by
  induction l generalizing n with
  | nil => simp at h
  | cons x l ih =>
    rw [filterMap_cons] at h
    cases hx : f x with
    | none =>
      rw [hx] at h
      obtain ⟨a, x', b, rfl, hx', hlen⟩ := ih h
      exact ⟨x :: a, x', b, rfl, hx', by simpa [hx] using hlen⟩
    | some z =>
      rw [hx] at h
      cases n with
      | zero =>
        cases h
        exact ⟨[], x, l, rfl, hx, rfl⟩
      | succ n =>
        obtain ⟨a, x', b, rfl, hx', hlen⟩ := ih h
        exact ⟨x :: a, x', b, rfl, hx', by simp [hx, hlen]⟩

lemma filterMap_getElem?_of_split {γ : Type} {f : α → Option β} {g : α → Option γ}
    (hfg : ∀ x, (f x).isSome = (g x).isSome) (a b : List α) {x : α} {y : β} (hx : f x = some y) :
    ((a ++ x :: b).filterMap f)[(a.filterMap g).length]? = some y := by
  have hlen : (a.filterMap g).length = (a.filterMap f).length := by
    induction a with
    | nil => rfl
    | cons z a ih =>
      have hz := hfg z
      cases hf : f z <;> cases hg : g z <;> simp_all
  rw [hlen, filterMap_append, filterMap_cons, hx, getElem?_append_right le_rfl]
  simp

lemma modify_append_cons (a b : List α) (x : α) (f : α → α) :
    (a ++ x :: b).modify a.length f = a ++ f x :: b := by
  induction a with
  | nil => rfl
  | cons y a ih => simpa using ih

lemma map_eq_of_forall₂ {γ : Type} {f : α → γ} {g : β → γ} (h : List.Forall₂ R l r)
    (hfg : ∀ a b, R a b → f a = g b) : l.map f = r.map g := by
  induction h with
  | nil => rfl
  | cons hab _ ih => rw [map_cons, map_cons, ih, hfg _ _ hab]

lemma forall₂_mem_left (h : List.Forall₂ R l r) (ha : a ∈ l) : ∃ b ∈ r, R a b := by
  induction h with
  | nil => cases ha
  | cons hab _ ih =>
    rcases mem_cons.mp ha with rfl | ha
    · exact ⟨_, .head _, hab⟩
    · obtain ⟨b, hb, hr⟩ := ih ha
      exact ⟨b, .tail _ hb, hr⟩

lemma forall₂_imp_mem {S : α → β → Prop} (h : List.Forall₂ R l r)
    (himp : ∀ a b, a ∈ l → b ∈ r → R a b → S a b) : List.Forall₂ S l r := by
  induction h with
  | nil => exact .nil
  | cons hab _ ih =>
    refine .cons (himp _ _ (.head _) (.head _) hab) (ih ?_)
    intro a b ha hb
    exact himp a b (.tail _ ha) (.tail _ hb)

/-- The `width` low bytes of `n`, most significant first. -/
def beBytes : Nat → Nat → Bytes
  | 0, _ => []
  | width + 1, n => UInt8.ofNat (n / 256 ^ width) :: beBytes width n

def beNat (bytes : Bytes) : Nat :=
  bytes.foldl (fun value byte => value * 256 + byte.toNat) 0

@[simp] lemma beBytes_length (width n : Nat) : (beBytes width n).length = width := by
  induction width with
  | zero => rfl
  | succ width ih => simp [beBytes, ih]

lemma foldl_beBytes (width n acc : Nat) :
    (beBytes width n).foldl (· * 256 + ·.toNat) acc = acc * 256 ^ width + n % 256 ^ width := by
  induction width generalizing acc with
  | zero => simp [beBytes, Nat.mod_one]
  | succ width ih =>
    have hmod : n % 256 ^ (width + 1) = n % 256 ^ width + 256 ^ width * (n / 256 ^ width % 256) := by
      rw [pow_succ, Nat.mod_mul]
    simp only [beBytes, foldl_cons, ih, UInt8.toNat_ofNat', hmod]
    ring

@[simp] lemma beNat_beBytes_mod (width n : Nat) : beNat (beBytes width n) = n % 256 ^ width := by
  simp [beNat, foldl_beBytes]

lemma beNat_beBytes {n : Nat} (h : n < 256 ^ width) : beNat (beBytes width n) = n := by
  rw [beNat_beBytes_mod, Nat.mod_eq_of_lt h]

lemma foldl_add (bytes : Bytes) (acc : Nat) :
    bytes.foldl (· * 256 + ·.toNat) acc =
      acc * 256 ^ bytes.length + bytes.foldl (· * 256 + ·.toNat) 0 := by
  induction bytes generalizing acc with
  | nil => simp
  | cons b bytes ih =>
    rw [foldl_cons, foldl_cons, ih, ih (0 * 256 + b.toNat), length_cons]
    ring

lemma foldl_lt (bytes : Bytes) (acc : Nat) :
    bytes.foldl (· * 256 + ·.toNat) acc < (acc + 1) * 256 ^ bytes.length := by
  induction bytes generalizing acc with
  | nil => simp
  | cons byte bytes ih =>
    have hb := byte.toNat_lt
    calc _ < (acc * 256 + byte.toNat + 1) * 256 ^ bytes.length := by simpa using ih _
      _ ≤ ((acc + 1) * 256) * 256 ^ bytes.length := Nat.mul_le_mul_right _ (by omega)
      _ = (acc + 1) * 256 ^ (byte :: bytes).length := by rw [length_cons, pow_succ]; ring

lemma beNat_lt (bytes : Bytes) : beNat bytes < 256 ^ bytes.length := by
  simpa [beNat] using foldl_lt bytes 0

lemma beBytes_foldl (bytes : Bytes) (acc : Nat) :
    beBytes bytes.length (bytes.foldl (· * 256 + ·.toNat) acc) = bytes := by
  induction bytes generalizing acc with
  | nil => rfl
  | cons b bytes ih =>
    have hlow : bytes.foldl (· * 256 + ·.toNat) 0 < 256 ^ bytes.length := by
      simpa using foldl_lt bytes 0
    have hhigh : bytes.foldl (· * 256 + ·.toNat) (acc * 256 + b.toNat) =
        (acc * 256 + b.toNat) * 256 ^ bytes.length +
          bytes.foldl (· * 256 + ·.toNat) 0 := foldl_add bytes _
    rw [foldl_cons, length_cons, beBytes, ih]
    rw [hhigh, Nat.add_comm, Nat.add_mul_div_right _ _ (by positivity), Nat.div_eq_of_lt hlow]
    simp

lemma beBytes_beNat {bytes : Bytes} (h : bytes.length = width) :
    beBytes width (beNat bytes) = bytes := by
  subst h
  exact beBytes_foldl bytes 0

lemma slice_table {α : Type} {f : α → Bytes} (pre after : Bytes) {l : List α}
    (hwd : ∀ x ∈ l, (f x).length = width) {i : Nat} (hi : i < l.length) :
    pre.length + i * width + width ≤ (pre ++ (l.flatMap f ++ after)).length ∧
      ((pre ++ (l.flatMap f ++ after)).drop (pre.length + i * width)).take width = f l[i] := by
  induction l generalizing pre i with
  | nil => simp at hi
  | cons x l ih =>
    obtain ⟨hx, hl⟩ := forall_mem_cons.mp hwd
    rw [flatMap_cons]
    cases i with
    | zero =>
      rw [Nat.zero_mul, Nat.add_zero, drop_left' rfl, append_assoc, take_left' hx]
      simp only [length_append, hx, getElem_cons_zero, and_true]
      omega
    | succ i =>
      have hi' : i < l.length := by simpa using hi
      obtain ⟨hle, htake⟩ := ih (pre ++ f x) hl hi'
      rw [length_append, hx, append_assoc, Nat.add_assoc pre.length,
        show width + i * width = (i + 1) * width by ring] at hle htake
      rw [append_assoc, getElem_cons_succ]
      exact ⟨hle, htake⟩

lemma length_table {α : Type} {f : α → Bytes} {l : List α} (hwd : ∀ x ∈ l, (f x).length = width) :
    (l.flatMap f).length = l.length * width := by
  induction l with
  | nil => simp
  | cons x l ih =>
    obtain ⟨hx, hl⟩ := forall_mem_cons.mp hwd
    rw [flatMap_cons, length_append, ih hl, hx, length_cons]
    ring

/-- Prepends the continuation bytes of `value`, each carrying seven bits below a set high bit. -/
def varintHigh (value : Nat) (encoded : Bytes) : Bytes :=
  if 127 < value then
    varintHigh (value / 128 - 1) (UInt8.ofNat ((value / 128 - 1) % 128 + 128) :: encoded)
  else encoded
termination_by value

def offsetVarint (value : Nat) : Bytes :=
  varintHigh value [UInt8.ofNat (value % 128)]

/-- Reads the bytes that follow a continuation byte whose value so far is `value`. -/
def readVarintFrom (value : Nat) : Bytes → Option (Nat × Bytes)
  | [] => none
  | byte :: rest =>
    let value := (value + 1) * 128 + byte.toNat % 128
    if 128 ≤ byte.toNat then readVarintFrom value rest else some (value, rest)

def readOffsetVarint : Bytes → Option (Nat × Bytes)
  | [] => none
  | byte :: rest =>
    if 128 ≤ byte.toNat then readVarintFrom (byte.toNat % 128) rest
    else some (byte.toNat, rest)

lemma toNat_continuation (n : Nat) : (UInt8.ofNat (n % 128 + 128)).toNat = n % 128 + 128 := by
  simp only [UInt8.toNat_ofNat']
  omega

lemma toNat_final (n : Nat) : (UInt8.ofNat (n % 128)).toNat = n % 128 := by
  simp only [UInt8.toNat_ofNat']
  omega

lemma readOffsetVarint_varintHigh (value : Nat) (h : 127 < value) (rest : Bytes) :
    readOffsetVarint (varintHigh value rest) = readVarintFrom (value / 128 - 1) rest := by
  induction value using Nat.strong_induction_on generalizing rest with
  | _ value ih =>
    rw [varintHigh, if_pos h]
    by_cases hbig : 127 < value / 128 - 1
    · rw [ih (value / 128 - 1) (by omega) hbig, readVarintFrom]
      rw [toNat_continuation]
      have hval : ((value / 128 - 1) / 128 - 1 + 1) * 128 + ((value / 128 - 1) % 128 + 128) % 128 =
          value / 128 - 1 := by omega
      simp only [hval]
      rw [if_pos (by omega)]
    · rw [varintHigh, if_neg hbig, readOffsetVarint, toNat_continuation, if_pos (by omega)]
      congr 1
      omega

lemma varintHigh_append (value : Nat) (tail rest : Bytes) :
    varintHigh value tail ++ rest = varintHigh value (tail ++ rest) := by
  fun_induction varintHigh value tail with
  | case1 value tail h ih =>
    rw [ih, cons_append]
    conv_rhs => rw [varintHigh, if_pos h]
  | case2 value tail h => rw [varintHigh, if_neg h]

/-- Variable-length integers are read back exactly, and nothing past them is consumed. -/
theorem readOffsetVarint_offsetVarint (value : Nat) (rest : Bytes) :
    readOffsetVarint (offsetVarint value ++ rest) = some (value, rest) := by
  unfold offsetVarint
  rw [varintHigh_append]
  by_cases h : 127 < value
  · rw [readOffsetVarint_varintHigh value h, singleton_append, readVarintFrom, toNat_final,
      if_neg (by omega)]
    congr 2
    omega
  · rw [varintHigh, if_neg h, singleton_append, readOffsetVarint, toNat_final, if_neg (by omega)]
    congr 2
    omega

end ByteLib
