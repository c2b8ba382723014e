import Mathlib
import Wiring.Proofs.Script.PrintedTokens

/-!
# Printed units are read back

The tokens of printed text are one by one those that were printed, because no piece of it
goes on with the piece before. So the grammar derives the printed tree from them, and the
parser, which accepts the grammar, gives it back.
-/
namespace Wiring.Script

namespace Expr

/-- Assignments stand by themselves: neither a property of one nor a call of one can be
printed without parentheses. -/
def isAssignment : Expr → Bool
  | assign _ _ | setProp _ _ _ => true
  | _ => false

/-- Numbers that end with a digit, to which a point would belong. -/
def endsInDigit : Expr → Bool
  | literal (.int _) => true
  | literal (.float x) => x.isFinite
  | _ => false

def isClassRef : Expr → Bool
  | classRef name => isNameText name
  | _ => false

mutual

/-- Trees whose text can be read back: names are names, the class of a new object is given
by name, arrays with keys and tuples are not mistaken for other trees, and what a property
or a call is put after stays one piece. -/
def printable : Expr → Bool
  | var name => isVariableText name
  | assign name value => isVariableText name && printable value
  | prop receiver name =>
      printable receiver && !receiver.isAssignment && !receiver.endsInDigit && isNameText name
  | setProp receiver name value =>
      printable receiver && !receiver.isAssignment && !receiver.endsInDigit && isNameText name &&
        printable value
  | call callee arguments =>
      printable callee && !callee.isAssignment && allPrintable arguments
  | new className arguments => className.isClassRef && allPrintable arguments
  | literal _ => true
  | list items => allPrintable items
  | keyed entries => !entries.isEmpty && entriesPrintable entries
  | classRef _ => false
  | tuple parts => decide (2 ≤ parts.length) && allPrintable parts

def allPrintable : List Expr → Bool
  | [] => true
  | e :: rest => printable e && allPrintable rest

def entriesPrintable : List (ArrayKey × Expr) → Bool
  | [] => true
  | (_,e) :: rest => printable e && entriesPrintable rest

end

end Expr

def Statement.printable : Statement → Bool
  | namespaced name => isNameText name
  | expr e => e.printable
  | yield e => e.printable

/-- The front of a text gives tokens that make up a phrase, and then come the tokens of
the rest. -/
def Scans (cs rest : List Char) (φ : Phrase) : Prop :=
  ∀ offset, ∃ ts stop, tokensAt offset (cs ++ rest) = ts ++ tokensAt stop rest ∧ Derives ts φ

theorem not_greater (cs : List Char) : ∀ c ∈ (' ' :: cs).head?, c ≠ '>' := by
  intro c hc
  obtain rfl : ' ' = c := by simpa using hc
  decide

namespace Scans

variable {cs ds rest : List Char} {e value : Expr} {es : List Expr} {name : String}

theorem ofPrimary (h : Scans cs rest (.primary e)) : Scans cs rest (.chain e) := by
  intro offset
  obtain ⟨ts,stop,ht,hd⟩ := h offset
  exact ⟨ts,stop,ht,.ofPrimary hd⟩

theorem ofChain (h : Scans cs rest (.chain e)) : Scans cs rest (.expr e) := by
  intro offset
  obtain ⟨ts,stop,ht,hd⟩ := h offset
  exact ⟨ts,stop,ht,.ofChain hd⟩

theorem var (h : isVariableText name = true) (hr : NameEnds rest) :
    Scans name.toList rest (.primary (.var name)) := by
  intro offset
  obtain ⟨hName,hKeyword⟩ := of_isVariableText h
  obtain ⟨t,stop,ht,htext,hkind⟩ := tokensAt_name hName hr offset
  rw [hKeyword,if_neg (by simp)] at hkind
  subst htext
  exact ⟨[t],stop,ht,.var hkind⟩

theorem assign (h : isVariableText name = true) (hv : Scans cs rest (.expr value)) :
    Scans (name.toList ++ " = ".toList ++ cs) rest (.expr (.assign name value)) := by
  intro offset
  have htext : name.toList ++ " = ".toList ++ cs ++ rest =
      name.toList ++ ' ' :: '=' :: ' ' :: (cs ++ rest) := by simp
  have hSpace : NameEnds (' ' :: '=' :: ' ' :: (cs ++ rest)) := nameEnds_cons (by decide)
  obtain ⟨ts,s₁,h₁,hd⟩ := var h hSpace offset
  obtain ⟨s₂,h₂⟩ := tokensAt_space s₁ ('=' :: ' ' :: (cs ++ rest))
  obtain ⟨t,s₃,h₃,ht⟩ := tokensAt_equals (not_greater (cs ++ rest)) s₂
  obtain ⟨s₄,h₄⟩ := tokensAt_space s₃ (cs ++ rest)
  obtain ⟨us,s₅,h₅,hu⟩ := hv s₄
  refine ⟨ts ++ t :: us,s₅,?_,.assign (.ofPrimary hd) ht hu (.var name value)⟩
  rw [htext,h₁,h₂,h₃,h₄,h₅,List.append_assoc,List.cons_append]

theorem prop (h : Scans cs ('.' :: (name.toList ++ rest)) (.chain e))
    (hName : isNameText name = true) (hr : NameEnds rest) :
    Scans (cs ++ '.' :: name.toList) rest (.chain (.prop e name)) := by
  intro offset
  obtain ⟨ts,s₁,h₁,hd⟩ := h offset
  obtain ⟨point,s₂,h₂,hp⟩ := tokensAt_punctuation (c := '.') (by decide) s₁ (name.toList ++ rest)
  obtain ⟨t,s₃,h₃,htext,hkind⟩ := tokensAt_name hName hr s₂
  subst htext
  refine ⟨ts ++ [point,t],s₃,?_,.prop hd hp (isName_of_kind hkind)⟩
  rw [List.append_assoc,List.cons_append,h₁,h₂,h₃,List.append_assoc]
  rfl

theorem setProp (h : Scans cs ('.' :: (name.toList ++ ' ' :: '=' :: ' ' :: (ds ++ rest))) (.chain e))
    (hName : isNameText name = true) (hv : Scans ds rest (.expr value)) :
    Scans (cs ++ '.' :: name.toList ++ " = ".toList ++ ds) rest (.expr (.setProp e name value)) := by
  intro offset
  have htext : cs ++ '.' :: name.toList ++ " = ".toList ++ ds ++ rest =
      cs ++ '.' :: name.toList ++ ' ' :: '=' :: ' ' :: (ds ++ rest) := by simp
  have hSpace : NameEnds (' ' :: '=' :: ' ' :: (ds ++ rest)) := nameEnds_cons (by decide)
  obtain ⟨ts,s₁,h₁,hd⟩ := prop h hName hSpace offset
  obtain ⟨s₂,h₂⟩ := tokensAt_space s₁ ('=' :: ' ' :: (ds ++ rest))
  obtain ⟨t,s₃,h₃,ht⟩ := tokensAt_equals (not_greater (ds ++ rest)) s₂
  obtain ⟨s₄,h₄⟩ := tokensAt_space s₃ (ds ++ rest)
  obtain ⟨us,s₅,h₅,hu⟩ := hv s₄
  refine ⟨ts ++ t :: us,s₅,?_,.assign hd ht hu (.prop e name value)⟩
  rw [htext,h₁,h₂,h₃,h₄,h₅,List.append_assoc,List.cons_append]

theorem call (h : Scans cs ('(' :: (ds ++ ')' :: rest)) (.chain e))
    (ha : Scans ds (')' :: rest) (.arguments es)) :
    Scans (cs ++ '(' :: ds ++ [')']) rest (.chain (.call e es)) := by
  intro offset
  have htext : cs ++ '(' :: ds ++ [')'] ++ rest = cs ++ '(' :: (ds ++ ')' :: rest) := by simp
  obtain ⟨ts,s₁,h₁,hd⟩ := h offset
  obtain ⟨left,s₂,h₂,hl⟩ := tokensAt_punctuation (c := '(') (by decide) s₁ (ds ++ ')' :: rest)
  obtain ⟨us,s₃,h₃,hu⟩ := ha s₂
  obtain ⟨right,s₄,h₄,hr⟩ := tokensAt_punctuation (c := ')') (by decide) s₃ rest
  refine ⟨ts ++ left :: (us ++ [right]),s₄,?_,.call hd hl hu hr⟩
  rw [htext,h₁,h₂,h₃,h₄]
  simp

theorem new (hName : isNameText name = true) (ha : Scans ds (')' :: rest) (.arguments es)) :
    Scans ("new ".toList ++ name.toList ++ '(' :: ds ++ [')']) rest
      (.primary (.construct name es)) := by
  intro offset
  have htext : "new ".toList ++ name.toList ++ '(' :: ds ++ [')'] ++ rest =
      "new".toList ++ ' ' :: (name.toList ++ '(' :: (ds ++ ')' :: rest)) := by simp
  have hSpace : NameEnds (' ' :: (name.toList ++ '(' :: (ds ++ ')' :: rest))) :=
    nameEnds_cons (by decide)
  have hOpen : NameEnds ('(' :: (ds ++ ')' :: rest)) := nameEnds_cons (by decide)
  have hNew : isNameText "new" = true := by decide
  obtain ⟨word,s₁,h₁,hw⟩ := tokensAt_keyword hNew (by decide) hSpace offset
  obtain ⟨s₂,h₂⟩ := tokensAt_space s₁ (name.toList ++ '(' :: (ds ++ ')' :: rest))
  obtain ⟨t,s₃,h₃,ht,hkind⟩ := tokensAt_name hName hOpen s₂
  obtain ⟨left,s₄,h₄,hl⟩ := tokensAt_punctuation (c := '(') (by decide) s₃ (ds ++ ')' :: rest)
  obtain ⟨us,s₅,h₅,hu⟩ := ha s₄
  obtain ⟨right,s₆,h₆,hr⟩ := tokensAt_punctuation (c := ')') (by decide) s₅ rest
  subst ht
  refine ⟨word :: t :: left :: (us ++ [right]),s₆,?_,.new hw (isName_of_kind hkind) hl hu hr⟩
  rw [htext,h₁,h₂,h₃,h₄,h₅,h₆]
  simp

theorem noArguments : Scans [] rest (.arguments []) :=
  fun offset => ⟨[],offset,rfl,.noArguments⟩

theorem ofItems (h : Scans cs rest (.items es)) : Scans cs rest (.arguments es) := by
  intro offset
  obtain ⟨ts,stop,ht,hd⟩ := h offset
  exact ⟨ts,stop,ht,.ofItems hd⟩

theorem item (h : Scans cs rest (.expr e)) : Scans cs rest (.items [e]) := by
  intro offset
  obtain ⟨ts,stop,ht,hd⟩ := h offset
  exact ⟨ts,stop,ht,.item hd⟩

theorem items (h : Scans cs (',' :: ' ' :: (ds ++ rest)) (.expr e)) (hs : Scans ds rest (.items es)) :
    Scans (cs ++ ',' :: ' ' :: ds) rest (.items (e :: es)) := by
  intro offset
  obtain ⟨ts,s₁,h₁,hd⟩ := h offset
  obtain ⟨comma,s₂,h₂,hc⟩ := tokensAt_punctuation (c := ',') (by decide) s₁ (' ' :: (ds ++ rest))
  obtain ⟨s₃,h₃⟩ := tokensAt_space s₂ (ds ++ rest)
  obtain ⟨us,s₄,h₄,hu⟩ := hs s₃
  refine ⟨ts ++ comma :: us,s₄,?_,.items hd hc hu⟩
  rw [List.append_assoc,List.cons_append,List.cons_append,h₁,h₂,h₃,h₄,List.append_assoc,
    List.cons_append]

theorem noItems : Scans ['[',']'] rest (.primary (.list [])) := by
  intro offset
  obtain ⟨left,s₁,h₁,hl⟩ := tokensAt_punctuation (c := '[') (by decide) offset (']' :: rest)
  obtain ⟨right,s₂,h₂,hr⟩ := tokensAt_punctuation (c := ']') (by decide) s₁ rest
  refine ⟨[left,right],s₂,?_,.noItems hl hr⟩
  rw [List.cons_append,List.cons_append,List.nil_append,h₁,h₂]
  rfl

/-- What stands between brackets or parentheses. -/
theorem between {φ : Phrase} (l r : Char) (hl : isPunctuation l = true)
    (hr : isPunctuation r = true) (h : Scans cs (r :: rest) φ) (offset : Nat) :
    ∃ left ts right stop, tokensAt offset (l :: cs ++ [r] ++ rest) =
        left :: (ts ++ [right]) ++ tokensAt stop rest ∧
      left.isCharacter l = true ∧ Derives ts φ ∧ right.isCharacter r = true := by
  have htext : l :: cs ++ [r] ++ rest = l :: (cs ++ r :: rest) := by simp
  obtain ⟨left,s₁,h₁,hl⟩ := tokensAt_punctuation hl offset (cs ++ r :: rest)
  obtain ⟨ts,s₂,h₂,hd⟩ := h s₁
  obtain ⟨right,s₃,h₃,hr⟩ := tokensAt_punctuation hr s₂ rest
  refine ⟨left,ts,right,s₃,?_,hl,hd,hr⟩
  rw [htext,h₁,h₂,h₃]
  simp

theorem list (h : Scans cs (']' :: rest) (.items es)) :
    Scans ('[' :: cs ++ [']']) rest (.primary (.list es)) := by
  intro offset
  obtain ⟨left,ts,right,stop,ht,hl,hd,hr⟩ := between '[' ']' rfl rfl h offset
  exact ⟨_,stop,ht,.list hl hd hr⟩

theorem keyed {es : List (ArrayKey × Expr)} (h : Scans cs (']' :: rest) (.entries es)) :
    Scans ('[' :: cs ++ [']']) rest (.primary (.keyed es)) := by
  intro offset
  obtain ⟨left,ts,right,stop,ht,hl,hd,hr⟩ := between '[' ']' rfl rfl h offset
  exact ⟨_,stop,ht,.keyed hl hd hr⟩

theorem tuple (h : Scans cs (')' :: rest) (.items es)) (hTwo : 2 ≤ es.length) :
    Scans ('(' :: cs ++ [')']) rest (.primary (.tuple es)) := by
  intro offset
  obtain ⟨left,ts,right,stop,ht,hl,hd,hr⟩ := between '(' ')' rfl rfl h offset
  obtain ⟨e,d,more,rfl⟩ : ∃ e d more, es = e :: d :: more := by
    rcases es with _ | ⟨e,_ | ⟨d,more⟩⟩
    · simp at hTwo
    · simp at hTwo
    · exact ⟨e,d,more,rfl⟩
  cases hd with
  | items hFirst hComma hItems =>
    refine ⟨_,stop,ht,?_⟩
    rw [List.append_assoc,List.cons_append]
    exact .tuple hl hFirst hComma hItems hr

theorem keyword (word : String) {v : Literal} (hName : isNameText word = true)
    (hWord : keywords.contains word = true) (hv : Constant word v)
    (hr : NameEnds rest) : Scans word.toList rest (.primary (.literal v)) := by
  intro offset
  obtain ⟨t,stop,ht,hk⟩ := tokensAt_keyword hName hWord hr offset
  exact ⟨[t],stop,ht,.constant hk hv⟩

theorem text (s : String) : Scans (quotedChars s) rest (.primary (.text s)) := by
  intro offset
  obtain ⟨t,stop,ht,hk,hs⟩ := tokensAt_quoted s rest offset
  subst hs
  exact ⟨[t],stop,ht,.text hk⟩

theorem int (i : Int64) (hr : NumberEnds rest) :
    Scans (toString i.toInt).toList rest (.primary (.literal (.int i))) := by
  intro offset
  by_cases hn : 0 ≤ i.toInt
  · have hi : i.toInt = if false = true then -(i.toInt.natAbs : Int) else i.toInt.natAbs := by
      rw [if_neg (by simp)]
      omega
    have hchars : (toString i.toInt).toList = Decimal.digits i.toInt.natAbs := by
      have hAbs : i.toInt.toNat = i.toInt.natAbs := by omega
      rw [Int.toString_eq_repr,Int.repr_eq_if,if_pos hn,Nat.toList_repr,Decimal.digits,hAbs]
    obtain ⟨t,stop,ht,hk,htext⟩ := tokensAt_digits i.toInt.natAbs hr offset
    rw [hchars]
    exact ⟨[t],stop,ht,.number hk (numeral_int htext hi)⟩
  · have hi : i.toInt = if true = true then -(i.toInt.natAbs : Int) else i.toInt.natAbs := by
      rw [if_pos rfl]
      omega
    have hchars : (toString i.toInt).toList = '-' :: Decimal.digits i.toInt.natAbs := by
      have hAbs : (-i.toInt).toNat = i.toInt.natAbs := by omega
      rw [Int.toString_eq_repr,Int.repr_eq_if,if_neg hn,String.toList_append,Nat.toList_repr,
        Decimal.digits,hAbs]
      rfl
    obtain ⟨minus,s₁,h₁,hm⟩ := tokensAt_minus offset (Decimal.digits i.toInt.natAbs ++ rest)
    obtain ⟨t,s₂,h₂,hk,htext⟩ := tokensAt_digits i.toInt.natAbs hr s₁
    refine ⟨[minus,t],s₂,?_,.negative hm hk (numeral_int htext hi)⟩
    rw [hchars,List.cons_append,h₁,h₂]
    rfl

theorem eq_infinity {x : Binary64} (h : x.isInfinite = true) : x = .infinity x.negative := by
  have hm : x.magnitude = Binary64.infinityBits := by simpa [Binary64.isInfinite] using h
  rw [Binary64.infinity,← hm,Binary64.ofMagnitude_negative_magnitude]

theorem eq_nan {x : Binary64} (h : x.isNaN = true) : x = .nan := by
  have hm : Binary64.infinityBits < x.bits.toNat % negativeCount := of_decide_eq_true h
  exact Binary64.mk.injEq .. ▸ x.oneNaN hm

theorem float (x : Binary64) (hr : NameEnds rest) (hf : x.isFinite = true → NumberEnds rest) :
    Scans (floatText x).toList rest (.primary (.literal (.float x))) := by
  unfold floatText
  by_cases hNaN : x.isNaN = true
  · rw [if_pos hNaN,eq_nan hNaN]
    exact keyword "NAN" (by decide) (by decide) .nan hr
  rw [if_neg hNaN]
  by_cases hInf : x.isInfinite = true
  · have hx := eq_infinity hInf
    rw [if_pos hInf]
    cases hneg : x.negative with
    | false =>
      rw [hneg] at hx
      rw [if_neg (by simp),hx]
      exact keyword "INF" (by decide) (by decide) .infinity hr
    | true =>
      rw [hneg] at hx
      rw [if_pos rfl,hx]
      intro offset
      have hName : isNameText "INF" = true := by decide
      obtain ⟨minus,s₁,h₁,hm⟩ := tokensAt_minus offset ("INF".toList ++ rest)
      obtain ⟨t,s₂,h₂,ht⟩ := tokensAt_keyword hName (by decide) hr s₁
      refine ⟨[minus,t],s₂,?_,.negativeInfinity hm ht⟩
      have htext : "-INF".toList ++ rest = '-' :: ("INF".toList ++ rest) := rfl
      rw [htext,h₁,h₂]
      rfl
  · have hm : x.magnitude ≤ Binary64.infinityBits := by
      simpa [Binary64.isNaN] using hNaN
    have hne : x.magnitude ≠ Binary64.infinityBits := by
      simpa [Binary64.isInfinite] using hInf
    have hfinite : x.isFinite = true := by
      simp only [Binary64.isFinite,decide_eq_true_eq]
      omega
    obtain ⟨d,hd,hnearest⟩ := floatStyle.magnitudeChars_text hm
    have hx : d.toBinary64 x.negative = x := by
      rw [Decimal.toBinary64,hnearest,Binary64.ofMagnitude_negative_magnitude]
    rw [if_neg hInf,FloatStyle.write,String.toList_ofList]
    intro offset
    cases hneg : x.negative with
    | false =>
      rw [hneg] at hx
      obtain ⟨t,stop,ht,hk,htext⟩ := tokensAt_float hd (hf hfinite) offset
      have hnumeral := numeral_float hd htext false
      rw [hx] at hnumeral
      exact ⟨[t],stop,ht,.number hk hnumeral⟩
    | true =>
      rw [hneg] at hx
      obtain ⟨minus,s₁,h₁,hm⟩ := tokensAt_minus offset (floatStyle.magnitudeChars x.magnitude ++ rest)
      obtain ⟨t,s₂,h₂,hk,htext⟩ := tokensAt_float hd (hf hfinite) s₁
      have hnumeral := numeral_float hd htext true
      rw [hx] at hnumeral
      refine ⟨[minus,t],s₂,?_,.negative hm hk hnumeral⟩
      rw [if_pos rfl,List.singleton_append,List.cons_append,h₁,h₂]
      rfl

theorem literal (v : Literal) (hr : NameEnds rest)
    (hn : (Expr.literal v).endsInDigit = true → NumberEnds rest) :
    Scans v.chars rest (.primary (.literal v)) := by
  cases v with
  | null => exact keyword "null" (by decide) (by decide) .null hr
  | bool b =>
    cases b with
    | false => exact keyword "false" (by decide) (by decide) .false hr
    | true => exact keyword "true" (by decide) (by decide) .true hr
  | int i => exact int i (hn rfl)
  | float x => exact float x hr hn
  | text s => exact text s

theorem key (k : ArrayKey) (hr : NumberEnds rest) :
    ∃ keyExpr, KeyExpr keyExpr k ∧ Scans (keyChars k) rest (.expr keyExpr) := by
  cases k with
  | int i => exact ⟨_,.int i,(int i hr).ofPrimary.ofChain⟩
  | text s => exact ⟨_,.text s,(text s).ofPrimary.ofChain⟩

theorem entry (k : ArrayKey) (h : Scans cs rest (.expr e)) :
    Scans (keyChars k ++ " => ".toList ++ cs) rest (.entries [(k,e)]) := by
  intro offset
  have hSpace : NumberEnds (' ' :: '=' :: '>' :: ' ' :: (cs ++ rest)) :=
    numberEnds_cons (by decide) (by decide)
  have htext : keyChars k ++ " => ".toList ++ cs ++ rest =
      keyChars k ++ ' ' :: '=' :: '>' :: ' ' :: (cs ++ rest) := by simp
  obtain ⟨keyExpr,hKey,hScan⟩ := key k hSpace
  obtain ⟨ts,s₁,h₁,hd⟩ := hScan offset
  obtain ⟨s₂,h₂⟩ := tokensAt_space s₁ ('=' :: '>' :: ' ' :: (cs ++ rest))
  obtain ⟨arrow,s₃,h₃,ha⟩ := tokensAt_arrow s₂ (' ' :: (cs ++ rest))
  obtain ⟨s₄,h₄⟩ := tokensAt_space s₃ (cs ++ rest)
  obtain ⟨us,s₅,h₅,hu⟩ := h s₄
  refine ⟨ts ++ arrow :: us,s₅,?_,.entry hd ha hKey hu⟩
  rw [htext,h₁,h₂,h₃,h₄,h₅,List.append_assoc,List.cons_append]

theorem entries (k : ArrayKey) {es : List (ArrayKey × Expr)}
    (h : Scans cs (',' :: ' ' :: (ds ++ rest)) (.expr e)) (hs : Scans ds rest (.entries es)) :
    Scans (keyChars k ++ " => ".toList ++ cs ++ ',' :: ' ' :: ds) rest (.entries ((k,e) :: es)) := by
  intro offset
  obtain ⟨ts,s₁,h₁,hd⟩ := entry k h offset
  obtain ⟨comma,s₂,h₂,hc⟩ := tokensAt_punctuation (c := ',') (by decide) s₁ (' ' :: (ds ++ rest))
  obtain ⟨s₃,h₃⟩ := tokensAt_space s₂ (ds ++ rest)
  obtain ⟨us,s₄,h₄,hu⟩ := hs s₃
  have htext : keyChars k ++ " => ".toList ++ cs ++ ',' :: ' ' :: ds ++ rest =
      keyChars k ++ " => ".toList ++ cs ++ ',' :: ' ' :: (ds ++ rest) := by simp
  cases hd with
  | entry hKeyExpr hArrow hKey hValue =>
    refine ⟨_,s₄,?_,.entries hKeyExpr hArrow hKey hValue hc hu⟩
    rw [htext,h₁,h₂,h₃,h₄]
    simp
  | entries _ _ _ _ _ hNone => cases hNone

end Scans

/-- What the text of a tree is read as: an assignment is no chain. -/
def phraseOf (e : Expr) : Phrase := if e.isAssignment then .expr e else .chain e

/-- The characters that may follow the text of a tree. -/
def Follows (e : Expr) (rest : List Char) : Prop :=
  NameEnds rest ∧ ((e.isAssignment || e.endsInDigit) = true → NumberEnds rest)

theorem follows_of_numberEnds {rest : List Char} (e : Expr) (h : NumberEnds rest) :
    Follows e rest := ⟨h.name,fun _ => h⟩

theorem follows_of_plain {rest : List Char} {e : Expr} (ha : e.isAssignment = false)
    (hd : e.endsInDigit = false) (h : NameEnds rest) : Follows e rest := by
  refine ⟨h,fun hTrue => ?_⟩
  rw [ha,hd] at hTrue
  cases hTrue

theorem scans_expr {cs rest : List Char} {e : Expr} (h : Scans cs rest (phraseOf e)) :
    Scans cs rest (.expr e) := by
  unfold phraseOf at h
  split at h
  · exact h
  · exact h.ofChain

theorem scans_chain {cs rest : List Char} {e : Expr} (ha : e.isAssignment = false)
    (h : Scans cs rest (phraseOf e)) : Scans cs rest (.chain e) := by
  rwa [phraseOf,ha,if_neg (by simp)] at h

mutual

/-- The text of a printable tree gives tokens from which the tree derives. -/
theorem scans_chars : ∀ e : Expr, e.printable = true → ∀ rest, Follows e rest →
    Scans e.chars rest (phraseOf e)
  | .var name, h, rest, hr => by
    simp only [Expr.printable] at h
    simp only [Expr.chars]
    exact (Scans.var h hr.1).ofPrimary
  | .assign name value, h, rest, hr => by
    simp only [Expr.printable,Bool.and_eq_true] at h
    simp only [Expr.chars]
    have hv := scans_chars value h.2 rest (follows_of_numberEnds value (hr.2 rfl))
    exact Scans.assign h.1 (scans_expr hv)
  | .prop receiver name, h, rest, hr => by
    simp only [Expr.printable,Bool.and_eq_true,Bool.not_eq_true'] at h
    obtain ⟨⟨⟨hp,ha⟩,hd⟩,hn⟩ := h
    simp only [Expr.chars]
    have hf : Follows receiver ('.' :: (name.toList ++ rest)) :=
      follows_of_plain ha hd (nameEnds_cons (by decide))
    exact Scans.prop (scans_chain ha (scans_chars receiver hp _ hf)) hn hr.1
  | .setProp receiver name value, h, rest, hr => by
    simp only [Expr.printable,Bool.and_eq_true,Bool.not_eq_true'] at h
    obtain ⟨⟨⟨⟨hp,ha⟩,hd⟩,hn⟩,hv⟩ := h
    simp only [Expr.chars]
    have hf : Follows receiver ('.' :: (name.toList ++ ' ' :: '=' :: ' ' :: (value.chars ++ rest))) :=
      follows_of_plain ha hd (nameEnds_cons (by decide))
    have hValue := scans_chars value hv rest (follows_of_numberEnds value (hr.2 rfl))
    exact Scans.setProp (scans_chain ha (scans_chars receiver hp _ hf)) hn (scans_expr hValue)
  | .call callee arguments, h, rest, hr => by
    simp only [Expr.printable,Bool.and_eq_true,Bool.not_eq_true'] at h
    obtain ⟨⟨hp,ha⟩,hs⟩ := h
    simp only [Expr.chars]
    have hf : Follows callee ('(' :: (Expr.allChars arguments ++ ')' :: rest)) :=
      follows_of_numberEnds callee (numberEnds_cons (by decide) (by decide))
    exact Scans.call (scans_chain ha (scans_chars callee hp _ hf))
      (scans_arguments arguments hs rest)
  | .new className arguments, h, rest, hr => by
    simp only [Expr.printable,Bool.and_eq_true] at h
    obtain ⟨hc,hs⟩ := h
    cases className with
    | classRef name =>
      simp only [Expr.chars]
      exact (Scans.new hc (scans_arguments arguments hs rest)).ofPrimary
    | _ => cases hc
  | .literal value, _, rest, hr => by
    simp only [Expr.chars]
    exact (Scans.literal value hr.1 fun h => hr.2 h).ofPrimary
  | .list items, h, rest, hr => by
    simp only [Expr.printable] at h
    cases items with
    | nil =>
      simp only [Expr.chars,Expr.allChars]
      exact Scans.noItems.ofPrimary
    | cons e es =>
      simp only [Expr.chars]
      exact (Scans.list (scans_items (e :: es) h _ (numberEnds_cons (by decide) (by decide))
        (List.cons_ne_nil _ _))).ofPrimary
  | .keyed entries, h, rest, hr => by
    simp only [Expr.printable,Bool.and_eq_true,Bool.not_eq_true',List.isEmpty_eq_false_iff] at h
    simp only [Expr.chars]
    exact (Scans.keyed (scans_entries entries h.2 _ (numberEnds_cons (by decide) (by decide))
      h.1)).ofPrimary
  | .classRef _, h, _, _ => by simp [Expr.printable] at h
  | .tuple parts, h, rest, hr => by
    simp only [Expr.printable,Bool.and_eq_true,decide_eq_true_eq] at h
    have hne : parts ≠ [] := by
      rintro rfl
      simp at h
    simp only [Expr.chars]
    exact (Scans.tuple (scans_items parts h.2 _ (numberEnds_cons (by decide) (by decide)) hne)
      h.1).ofPrimary

theorem scans_arguments : ∀ es : List Expr, Expr.allPrintable es = true → ∀ rest,
    Scans (Expr.allChars es) (')' :: rest) (.arguments es)
  | [], _, rest => by
    simp only [Expr.allChars]
    exact Scans.noArguments
  | e :: es, h, rest =>
    (scans_items (e :: es) h (')' :: rest) (numberEnds_cons (by decide) (by decide))
      (List.cons_ne_nil e es)).ofItems

theorem scans_items : ∀ es : List Expr, Expr.allPrintable es = true → ∀ rest, NumberEnds rest →
    es ≠ [] → Scans (Expr.allChars es) rest (.items es)
  | [], _, _, _, hne => absurd rfl hne
  | [e], h, rest, hr, _ => by
    simp only [Expr.allPrintable,Bool.and_eq_true] at h
    simp only [Expr.allChars]
    exact Scans.item (scans_expr (scans_chars e h.1 rest (follows_of_numberEnds e hr)))
  | e :: d :: es, h, rest, hr, _ => by
    simp only [Expr.allPrintable,Bool.and_eq_true] at h
    have hf : Follows e (',' :: ' ' :: (Expr.allChars (d :: es) ++ rest)) :=
      follows_of_numberEnds e (numberEnds_cons (by decide) (by decide))
    have hs := scans_items (d :: es) (by simp only [Expr.allPrintable,Bool.and_eq_true]; exact h.2)
      rest hr (List.cons_ne_nil d es)
    simp only [Expr.allChars]
    exact Scans.items (scans_expr (scans_chars e h.1 _ hf)) hs

theorem scans_entries : ∀ es : List (ArrayKey × Expr), Expr.entriesPrintable es = true → ∀ rest,
    NumberEnds rest → es ≠ [] → Scans (Expr.entryChars es) rest (.entries es)
  | [], _, _, _, hne => absurd rfl hne
  | [(k,e)], h, rest, hr, _ => by
    simp only [Expr.entriesPrintable,Bool.and_eq_true] at h
    simp only [Expr.entryChars]
    exact Scans.entry k (scans_expr (scans_chars e h.1 rest (follows_of_numberEnds e hr)))
  | (k,e) :: d :: es, h, rest, hr, _ => by
    simp only [Expr.entriesPrintable,Bool.and_eq_true] at h
    have hf : Follows e (',' :: ' ' :: (Expr.entryChars (d :: es) ++ rest)) :=
      follows_of_numberEnds e (numberEnds_cons (by decide) (by decide))
    have hs := scans_entries (d :: es)
      (by simp only [Expr.entriesPrintable,Bool.and_eq_true]; exact h.2) rest hr (List.cons_ne_nil d es)
    simp only [Expr.entryChars]
    exact Scans.entries k (scans_expr (scans_chars e h.1 _ hf)) hs

end

/-- The text of a printable statement gives its tokens, the semicolon and the end of the
line with it. -/
theorem scans_statement {s : Statement} (h : s.printable = true) (rest : List Char) (offset : Nat) :
    ∃ ts stop, tokensAt offset (s.chars ++ rest) = ts ++ tokensAt stop rest ∧
      DerivesStatement ts s := by
  have hEnd (cs : List Char) : NumberEnds (';' :: cs) := numberEnds_cons (by decide) (by decide)
  cases s with
  | namespaced name =>
    simp only [Statement.printable] at h
    have htext : (Statement.namespaced name).chars ++ rest =
        "namespace".toList ++ ' ' :: (name.toList ++ ';' :: '\n' :: '\n' :: rest) := by
      have hWord : "namespace ".toList = "namespace".toList ++ [' '] := by decide
      have hLine : ";\n\n".toList = [';','\n','\n'] := by decide
      unfold Statement.chars
      rw [hWord,hLine]
      simp only [List.append_assoc,List.cons_append,List.nil_append]
    have hSpace : NameEnds (' ' :: (name.toList ++ ';' :: '\n' :: '\n' :: rest)) :=
      nameEnds_cons (by decide)
    have hWord : isNameText "namespace" = true := by decide
    obtain ⟨word,s₁,h₁,hw⟩ := tokensAt_keyword hWord (by decide) hSpace offset
    obtain ⟨s₂,h₂⟩ := tokensAt_space s₁ (name.toList ++ ';' :: '\n' :: '\n' :: rest)
    obtain ⟨t,s₃,h₃,ht,hkind⟩ := tokensAt_name h (hEnd _).name s₂
    obtain ⟨semicolon,s₄,h₄,hs⟩ := tokensAt_punctuation (c := ';') (by decide) s₃ ('\n' :: '\n' :: rest)
    obtain ⟨s₅,h₅⟩ := tokensAt_newline s₄ ('\n' :: rest)
    obtain ⟨s₆,h₆⟩ := tokensAt_newline s₅ rest
    subst ht
    refine ⟨[word,t,semicolon],s₆,?_,.namespaced hw (isName_of_kind hkind) hs⟩
    rw [htext,h₁,h₂,h₃,h₄,h₅,h₆]
    rfl
  | expr e =>
    simp only [Statement.printable] at h
    have htext : (Statement.expr e).chars ++ rest = e.chars ++ ';' :: '\n' :: rest := by
      have hLine : ";\n".toList = [';','\n'] := by decide
      unfold Statement.chars
      rw [hLine,List.append_assoc]
      rfl
    have hScan := scans_expr (scans_chars e h _ (follows_of_numberEnds e (hEnd ('\n' :: rest))))
    obtain ⟨ts,s₁,h₁,hd⟩ := hScan offset
    obtain ⟨semicolon,s₂,h₂,hs⟩ := tokensAt_punctuation (c := ';') (by decide) s₁ ('\n' :: rest)
    obtain ⟨s₃,h₃⟩ := tokensAt_newline s₂ rest
    refine ⟨ts ++ [semicolon],s₃,?_,.expr hd hs⟩
    rw [htext,h₁,h₂,h₃,List.append_assoc,List.singleton_append]
  | yield e =>
    simp only [Statement.printable] at h
    have htext : (Statement.yield e).chars ++ rest =
        "return".toList ++ ' ' :: (e.chars ++ ';' :: '\n' :: rest) := by
      have hWord : "return ".toList = "return".toList ++ [' '] := by decide
      have hLine : ";\n".toList = [';','\n'] := by decide
      unfold Statement.chars
      rw [hWord,hLine]
      simp only [List.append_assoc,List.cons_append,List.nil_append]
    have hSpace : NameEnds (' ' :: (e.chars ++ ';' :: '\n' :: rest)) := nameEnds_cons (by decide)
    have hWord : isNameText "return" = true := by decide
    have hScan := scans_expr (scans_chars e h _ (follows_of_numberEnds e (hEnd ('\n' :: rest))))
    obtain ⟨word,s₁,h₁,hw⟩ := tokensAt_keyword hWord (by decide) hSpace offset
    obtain ⟨s₂,h₂⟩ := tokensAt_space s₁ (e.chars ++ ';' :: '\n' :: rest)
    obtain ⟨ts,s₃,h₃,hd⟩ := hScan s₂
    obtain ⟨semicolon,s₄,h₄,hs⟩ := tokensAt_punctuation (c := ';') (by decide) s₃ ('\n' :: rest)
    obtain ⟨s₅,h₅⟩ := tokensAt_newline s₄ rest
    refine ⟨word :: (ts ++ [semicolon]),s₅,?_,.yield hw hd hs⟩
    rw [htext,h₁,h₂,h₃,h₄,h₅]
    simp

theorem tokensAt_nil (offset : Nat) : tokensAt offset [] = [] := by
  simp [tokensAt,tokensFrom,splitBlank,splitToken]

theorem derivesUnit_printed {statements : List Statement}
    (h : ∀ s ∈ statements, s.printable = true) (offset : Nat) :
    DerivesUnit (tokensAt offset (statements.flatMap Statement.chars)) statements := by
  induction statements generalizing offset with
  | nil =>
    rw [List.flatMap_nil,tokensAt_nil]
    exact .nil
  | cons s ss ih =>
    obtain ⟨ts,stop,ht,hd⟩ := scans_statement (h s List.mem_cons_self)
      (ss.flatMap Statement.chars) offset
    rw [List.flatMap_cons,ht]
    exact .cons hd (ih (fun s hs => h s (List.mem_cons_of_mem _ hs)) stop)

theorem parseUnit_printUnit (file : String) {statements : List Statement}
    (h : ∀ s ∈ statements, s.printable = true) :
    parseUnit file (printUnit statements) = .ok statements := by
  have hd := derivesUnit_printed h 0
  have htokens : tokenize (printUnit statements) =
      tokensAt 0 (statements.flatMap Statement.chars) := by
    rw [tokenize,printUnit,String.toList_ofList]
    rfl
  unfold parseUnit
  simp only [htokens]
  rw [hd.reads _ (by unfold fuelFor; omega) (Nat.le_refl _)]
  rfl

theorem parseExpression_print {e : Expr} (h : e.printable = true) :
    parseExpression e.print = .ok e := by
  obtain ⟨ts,stop,ht,hd⟩ :=
    scans_expr (scans_chars e h [] (follows_of_numberEnds e numberEnds_nil)) 0
  rw [List.append_nil,tokensAt_nil,List.append_nil] at ht
  have htokens : tokenize e.print = ts := by
    rw [tokenize,Expr.print,String.toList_ofList,← ht]
    rfl
  have hRead := hd.reads (byteLength e.print.toList) (fuelFor ts) [] (by unfold fuelFor; omega)
    (.nil _)
  rw [List.append_nil] at hRead
  unfold parseExpression
  simp only [htokens,hRead,ok_bind,pure_ok]
  rfl

/-- Parsing undoes printing, for units and for lone expressions. -/
theorem parse_undoes_print :
    (∀ (file : String) (statements : List Statement), (∀ s ∈ statements, s.printable = true) →
      parseUnit file (printUnit statements) = .ok statements) ∧
    (∀ e : Expr, e.printable = true → parseExpression e.print = .ok e) :=
  ⟨fun file _ h => parseUnit_printUnit file h,fun _ h => parseExpression_print h⟩

/-- A unit with a keyword for a name, the least integer, a key and a text with quotes. -/
def sampleUnit : List Statement :=
  [.namespaced "App\\new",
    .expr (.assign "instance" (.construct "App\\Mailer" [.literal (.int (-9223372036854775808)),
      .keyed [(.text "it's",.list []),(.int (-1),.literal (.float (.infinity true)))]])),
    .expr (.callMethod (.var "instance") "null" [.tuple [.literal .null,.text "\n\\"]]),
    .expr (.setProp (.var "instance") "count" (.literal (.bool true))),
    .yieldPair (.var "instance") true]

theorem parse_undoes_print_sample :
    parseUnit "unit" (printUnit sampleUnit) = .ok sampleUnit ∧
      parseExpression (Expr.print (.prop (.var "instance") "count")) =
        .ok (.prop (.var "instance") "count") :=
  ⟨parse_undoes_print.1 "unit" sampleUnit (by decide),parse_undoes_print.2 _ (by decide)⟩

end Wiring.Script
