import Mathlib.Data.List.Chain
import Girt.Lib.Bytes

/-!
# Text with two kinds of line ends

A line feed may be spelled alone or after a carriage return. A text is read as symbols, so that a
reader sees one line feed either way; every symbol knows how many bytes it takes.
-/

namespace LineEnds
open ByteLib List

def lf : UInt8 := 10
def cr : UInt8 := 13

inductive Symbol where
  | plain (byte : UInt8)
  | crlf
  deriving DecidableEq

namespace Symbol

def byte : Symbol → UInt8
  | plain b => b
  | crlf => lf

def spell : Symbol → Bytes
  | plain b => [b]
  | crlf => [cr, lf]

def width (s : Symbol) : Nat := s.spell.length

lemma width_pos (s : Symbol) : 0 < s.width := by
  cases s
  · exact Nat.one_pos
  · exact Nat.two_pos

lemma eq_plain {s : Symbol} {b : UInt8} (h : s.byte = b) (hb : lf ≠ b) : s = plain b := by
  cases s with
  | plain c => rw [← h, byte]
  | crlf => exact absurd h hb

end Symbol

variable {b : UInt8} {l : List Symbol}

def symbols : Bytes → List Symbol
  | [] => []
  | [b] => [.plain b]
  | b :: c :: rest =>
    if b = cr ∧ c = lf then .crlf :: symbols rest else .plain b :: symbols (c :: rest)

def spell (l : List Symbol) : Bytes := l.flatMap Symbol.spell

def widths (l : List Symbol) : Nat := (l.map Symbol.width).sum

def newlines (l : List Symbol) : Nat := l.countP (fun s => s.byte = lf)

/-- No carriage return stands apart from its line feed. -/
def Separated (l : List Symbol) : Prop := l.IsChain (fun a b => ¬ (a = .plain cr ∧ b = .plain lf))

@[simp] lemma spell_nil : spell [] = [] := rfl

@[simp] lemma spell_cons (s : Symbol) (l : List Symbol) : spell (s :: l) = s.spell ++ spell l := rfl

@[simp] lemma spell_append (a b : List Symbol) : spell (a ++ b) = spell a ++ spell b := flatMap_append

@[simp] lemma widths_nil : widths [] = 0 := rfl

@[simp] lemma widths_cons (s : Symbol) (l : List Symbol) : widths (s :: l) = s.width + widths l := by
  simp [widths]

@[simp] lemma widths_append (a b : List Symbol) : widths (a ++ b) = widths a + widths b := by
  simp [widths]

lemma length_spell (l : List Symbol) : (spell l).length = widths l := by
  induction l with
  | nil => rfl
  | cons s l ih => rw [spell_cons, length_append, ih, widths_cons, Symbol.width]

lemma spell_symbols (b : Bytes) : spell (symbols b) = b := by
  fun_induction symbols b with
  | case1 | case2 b => rfl
  | case3 b c rest h ih =>
    rw [spell_cons, ih, h.1, h.2]
    rfl
  | case4 b c rest h ih =>
    rw [spell_cons, ih]
    rfl

lemma symbols_plain {rest : Bytes} (h : ¬ (b = cr ∧ rest.head? = some lf)) :
    symbols (b :: rest) = .plain b :: symbols rest := by
  cases rest with
  | nil => rfl
  | cons c rest =>
    rw [symbols, if_neg]
    rintro ⟨rfl, rfl⟩
    exact h ⟨rfl, rfl⟩

lemma symbols_lf (rest : Bytes) : symbols (lf :: rest) = .plain lf :: symbols rest :=
  symbols_plain fun h => absurd h.1 (by decide)

lemma symbols_spell (h : Separated l) : symbols (spell l) = l := by
  induction l with
  | nil => rfl
  | cons s l ih =>
    have htail : symbols (spell l) = l := ih (List.IsChain.of_cons h)
    cases s with
    | crlf =>
      change symbols (cr :: lf :: spell l) = _
      rw [symbols, if_pos ⟨rfl, rfl⟩, htail]
    | plain b =>
      change symbols (b :: spell l) = _
      rw [symbols_plain, htail]
      rintro ⟨rfl, hhead⟩
      cases l with
      | nil => cases hhead
      | cons t l =>
        have hjoin := (isChain_cons_cons.mp h).1
        cases t with
        | crlf => cases hhead
        | plain c =>
          cases hhead
          exact hjoin ⟨rfl, rfl⟩

lemma separated_symbols (b : Bytes) : Separated (symbols b) := by
  fun_induction symbols b with
  | case1 => exact List.IsChain.nil
  | case2 b => exact List.IsChain.singleton _
  | case3 b c rest h ih =>
    refine isChain_cons.mpr ⟨?_, ih⟩
    rintro t -
    exact fun hjoin => Symbol.noConfusion hjoin.1
  | case4 b c rest h ih =>
    refine isChain_cons.mpr ⟨?_, ih⟩
    intro t ht hjoin
    have hspe := spell_symbols (c :: rest)
    cases hsym : symbols (c :: rest) with
    | nil =>
      rw [hsym] at ht
      cases ht
    | cons t' l =>
      rw [hsym] at ht hspe
      cases ht
      obtain ⟨hb, ht⟩ := hjoin
      subst ht
      cases hb
      cases hspe
      exact h ⟨rfl, rfl⟩

lemma symbols_eq_append {b : Bytes} {r : List Symbol} (h : symbols b = l ++ r) :
    b = spell l ++ spell r ∧ symbols (spell l) = l ∧ symbols (spell r) = r := by
  have hsep := separated_symbols b
  rw [h] at hsep
  obtain ⟨hl, hr, -⟩ := isChain_append.mp hsep
  refine ⟨?_, symbols_spell hl, symbols_spell hr⟩
  rw [← spell_append, ← h, spell_symbols]

lemma getLast?_spell (h : l.getLast? = some (.plain b)) : (spell l).getLast? = some b := by
  obtain ⟨init, rfl⟩ := getLast?_eq_some_iff.mp h
  simp [Symbol.spell]

lemma head?_spell (h : l.head? = some (.plain b)) : (spell l).head? = some b := by
  cases l with
  | nil => cases h
  | cons s l =>
    cases h
    rfl

lemma symbols_append {a b : Bytes} (h : ¬ (a.getLast? = some cr ∧ b.head? = some lf)) :
    symbols (a ++ b) = symbols a ++ symbols b := by
  have hsep : Separated (symbols a ++ symbols b) := by
    refine isChain_append.mpr ⟨separated_symbols a, separated_symbols b, ?_⟩
    rintro x hx y hy ⟨rfl, rfl⟩
    apply h
    rw [← spell_symbols a, ← spell_symbols b]
    exact ⟨getLast?_spell hx, head?_spell hy⟩
  have hspe : a ++ b = spell (symbols a ++ symbols b) := by
    rw [spell_append, spell_symbols, spell_symbols]
  rw [hspe, symbols_spell hsep]

lemma symbols_join (a b : Bytes) :
    symbols (a ++ cr :: lf :: b) = symbols a ++ .crlf :: symbols b := by
  rw [symbols_append]
  · rw [symbols, if_pos ⟨rfl, rfl⟩]
  · rintro ⟨-, h⟩
    cases h

lemma symbols_of_not_mem {b : Bytes} (h : lf ∉ b) : symbols b = b.map .plain := by
  induction b with
  | nil => rfl
  | cons c b ih =>
    rw [symbols_plain, ih (not_mem_of_not_mem_cons h), map_cons]
    rintro ⟨-, hhead⟩
    exact h (.tail _ (mem_of_head? hhead))

lemma lf_mem_spell : lf ∈ spell l ↔ ∃ s ∈ l, s.byte = lf := by
  unfold spell
  rw [mem_flatMap]
  constructor
  · rintro ⟨s, hs, hmem⟩
    refine ⟨s, hs, ?_⟩
    cases s with
    | plain b => exact (mem_singleton.mp hmem).symm
    | crlf => rfl
  · rintro ⟨s, hs, hbyte⟩
    refine ⟨s, hs, ?_⟩
    cases s with
    | plain b => exact mem_singleton.mpr hbyte.symm
    | crlf => decide

end LineEnds
