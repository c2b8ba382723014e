import Mathlib
import Wiring.Proofs.Number.ReadBack
import Wiring.Proofs.Script.Lexing
import Wiring.Proofs.Script.Parsing
import Wiring.Script.Printer

/-!
# Printed names, numbers and quoted texts

Each is one token, provided that what follows does not go on with it: a name may not be
followed by a letter or a digit, a number not by a point either. Symbols and quoted texts
may be followed by anything.
-/
namespace Wiring.Script

/-- The kind of the one token that makes up a text. -/
def kindOf? (s : String) : Option TokenKind :=
  match splitToken s.toList with
  | some (lexeme,[]) => some lexeme.kind
  | _ => none

/-- A text that is one name. -/
def isNameText (s : String) : Bool := kindOf? s == some .identifier || kindOf? s == some .keyword

/-- A text that is one name and no keyword. -/
def isVariableText (s : String) : Bool := kindOf? s == some .identifier

/-- Characters that a name does not go on with. -/
def NameEnds (rest : List Char) : Prop := ∀ c ∈ rest.head?, isIdentifierPart c = false

/-- Characters that neither a name nor a number goes on with. -/
def NumberEnds (rest : List Char) : Prop :=
  ∀ c ∈ rest.head?, isIdentifierPart c = false ∧ c ≠ '.'

theorem NumberEnds.name {rest : List Char} (h : NumberEnds rest) : NameEnds rest :=
  fun c hc => (h c hc).1

theorem nameEnds_cons {c : Char} {rest : List Char} (h : isIdentifierPart c = false) :
    NameEnds (c :: rest) := by
  intro d hd
  obtain rfl : c = d := by simpa using hd
  exact h

theorem numberEnds_cons {c : Char} {rest : List Char} (h : isIdentifierPart c = false)
    (hp : c ≠ '.') : NumberEnds (c :: rest) := by
  intro d hd
  obtain rfl : c = d := by simpa using hd
  exact ⟨h,hp⟩

theorem numberEnds_nil : NumberEnds [] := fun _ hc => by cases hc

theorem splitBlank_start {c : Char} {rest : List Char} (hb : isBlank c = false) (hc : c ≠ '/') :
    splitBlank (c :: rest) = ([],c :: rest) := by
  unfold splitBlank
  split
  next heq => exact absurd (List.cons.inj heq).1 hc
  next heq =>
    obtain ⟨rfl,rfl⟩ := List.cons.inj heq
    simp only [hb,Bool.false_eq_true,if_false]
  next heq => cases heq

section Names

theorem isBlank_of_start {c : Char} (h : (isIdentifierStart c || c == '\\') = true) :
    isBlank c = false ∧ c ≠ '/' := by
  have hspace : ' '.val.toNat = 32 := rfl
  have hlower : 'a'.val.toNat = 97 := rfl
  have hupper : 'A'.val.toNat = 65 := rfl
  refine ⟨Bool.eq_false_iff.mpr fun hb => ?_,?_⟩
  · simp only [isIdentifierStart,isLetter,isBlank,Bool.or_eq_true,Bool.and_eq_true,
      decide_eq_true_eq,beq_iff_eq,Char.le_def,Char.lt_def,UInt32.le_iff_toNat_le,
      UInt32.lt_iff_toNat_lt] at h hb
    rcases hb with rfl | ⟨_,hb⟩
    · revert h
      decide
    · rcases h with ((h | h) | rfl) | rfl
      · omega
      · omega
      · revert hb
        decide
      · revert hb
        decide
  · rintro rfl
    revert h
    decide

theorem splitToken_name {c : Char} {name rest : List Char}
    (hc : (isIdentifierStart c || c == '\\') = true) (hn : ∀ d ∈ name, isIdentifierPart d = true)
    (hr : NameEnds rest) :
    splitToken (c :: (name ++ rest)) = some (.ofName (c :: name),rest) := by
  have htake : (name ++ rest).takeWhile isIdentifierPart = name := by
    rw [List.takeWhile_append_of_pos hn]
    cases rest with
    | nil => rw [List.takeWhile_nil,List.append_nil]
    | cons d more => rw [List.takeWhile_cons_of_neg (by simp [hr d rfl]),List.append_nil]
  have hdrop : (name ++ rest).dropWhile isIdentifierPart = rest := by
    rw [List.dropWhile_append_of_pos hn]
    cases rest with
    | nil => rfl
    | cons d more => rw [List.dropWhile_cons_of_neg (by simp [hr d rfl])]
  simp only [splitToken,hc,if_true,htake,hdrop]

/-- A text that is one name begins like one and goes on like one. -/
theorem chars_of_isNameText {s : String} (h : isNameText s = true) :
    ∃ c name, s.toList = c :: name ∧ (isIdentifierStart c || c == '\\') = true ∧
      ∀ d ∈ name, isIdentifierPart d = true := by
  unfold isNameText kindOf? at h
  cases hs : s.toList with
  | nil => simp [hs,splitToken] at h
  | cons c name =>
    by_cases hc : (isIdentifierStart c || c == '\\') = true
    · refine ⟨c,name,rfl,hc,?_⟩
      simp only [hs,splitToken,hc,if_true] at h
      cases hd : name.dropWhile isIdentifierPart with
      | nil => exact List.dropWhile_eq_nil_iff.mp hd
      | cons d more => simp [hd] at h
    · -- No other token has the kind of a name.
      exfalso
      rw [hs] at h
      cases ht : splitToken (c :: name) with
      | none => simp [ht] at h
      | some found =>
        obtain ⟨lexeme,left⟩ := found
        obtain ⟨hi,hk⟩ := splitToken_not_name ht hc
        cases left with
        | nil => simp [ht,hi,hk] at h
        | cons d more => simp [ht] at h

/-- A printed name is one token. -/
theorem tokensAt_name {name : String} {rest : List Char} (h : isNameText name = true)
    (hr : NameEnds rest) (offset : Nat) :
    ∃ t stop, tokensAt offset (name.toList ++ rest) = t :: tokensAt stop rest ∧ t.text = name ∧
      t.kind = if keywords.contains name then .keyword else .identifier := by
  obtain ⟨c,cs,hs,hc,hcs⟩ := chars_of_isNameText h
  obtain ⟨hb,hslash⟩ := isBlank_of_start hc
  have hname : String.ofList (c :: cs) = name := by rw [← hs,String.ofList_toList]
  have hkind : (Lexeme.ofName (c :: cs)).kind =
      if keywords.contains name then .keyword else .identifier := by
    rw [← hname]
    rfl
  have hError : (Lexeme.ofName (c :: cs)).kind ≠ .error := by
    rw [hkind]
    split
    · exact nofun
    · exact nofun
  rw [hs,List.cons_append,tokensAt_token (splitBlank_start hb hslash) (splitToken_name hc hcs hr)
    hError]
  exact ⟨_,_,rfl,hname,hkind⟩

theorem isName_of_kind {t : Token} {name : String}
    (h : t.kind = if keywords.contains name then .keyword else .identifier) : t.isName = true := by
  unfold Token.isName
  rw [h]
  split
  · rfl
  · rfl

theorem isKeyword_of_kind {t : Token} {word : String} (ht : t.text = word)
    (hw : keywords.contains word = true)
    (h : t.kind = if keywords.contains word then .keyword else .identifier) :
    t.isKeyword word = true := by
  rw [hw,if_pos rfl] at h
  simp [Token.isKeyword,h,ht]

/-- A variable is a name and no keyword. -/
theorem of_isVariableText {s : String} (h : isVariableText s = true) :
    isNameText s = true ∧ keywords.contains s = false := by
  have hName : isNameText s = true := by
    unfold isVariableText at h
    simp [isNameText,h]
  refine ⟨hName,?_⟩
  obtain ⟨c,cs,hs,hc,hcs⟩ := chars_of_isNameText hName
  have hsplit : splitToken (c :: (cs ++ [])) = some (.ofName (c :: cs),[]) :=
    splitToken_name hc hcs numberEnds_nil.name
  rw [List.append_nil,← hs] at hsplit
  refine Bool.eq_false_iff.mpr fun hk => ?_
  have hmem : s ∈ keywords := List.contains_iff_mem.mp hk
  simp [isVariableText,kindOf?,hsplit,Lexeme.ofName,Lexeme.verbatim,hmem] at h

/-- A printed keyword is one token. -/
theorem tokensAt_keyword {word : String} {rest : List Char} (h : isNameText word = true)
    (hw : keywords.contains word = true) (hr : NameEnds rest) (offset : Nat) :
    ∃ t stop, tokensAt offset (word.toList ++ rest) = t :: tokensAt stop rest ∧
      t.isKeyword word = true := by
  obtain ⟨t,stop,ht,htext,hkind⟩ := tokensAt_name h hr offset
  exact ⟨t,stop,ht,isKeyword_of_kind htext hw hkind⟩

end Names

section Symbols

theorem tokensAt_punctuation {c : Char} (h : isPunctuation c = true) (offset : Nat)
    (rest : List Char) :
    ∃ t stop, tokensAt offset (c :: rest) = t :: tokensAt stop rest ∧ t.isCharacter c = true := by
  have hb : isBlank c = false ∧ c ≠ '/' ∧ (isIdentifierStart c || c == '\\') = false ∧
      isDigit c = false := by
    have hm : c ∈ ['(',')',',',';','[',']','.'] := List.contains_iff_mem.mp h
    simp only [List.mem_cons,List.not_mem_nil,or_false] at hm
    rcases hm with rfl | rfl | rfl | rfl | rfl | rfl | rfl <;> decide
  obtain ⟨hb,hslash,hstart,hdigit⟩ := hb
  have hsplit : splitToken (c :: rest) = some (.verbatim .character [c],rest) := by
    simp only [splitToken,hstart,hdigit,h,Bool.false_eq_true,if_false,if_true]
  refine ⟨_,_,tokensAt_token (splitBlank_start hb hslash) hsplit (by intro h; cases h) offset,?_⟩
  simp [Token.isCharacter,Lexeme.verbatim]

theorem tokensAt_equals {rest : List Char} (h : ∀ c ∈ rest.head?, c ≠ '>') (offset : Nat) :
    ∃ t stop, tokensAt offset ('=' :: rest) = t :: tokensAt stop rest ∧
      t.isCharacter '=' = true := by
  have hsplit : splitToken ('=' :: rest) = some (.verbatim .character ['='],rest) := by
    cases rest with
    | nil => rfl
    | cons c more =>
      have hc : c ≠ '>' := h c rfl
      simp [splitToken,isIdentifierStart,isLetter,isDigit,isPunctuation,hc]
  refine ⟨_,_,tokensAt_token (splitBlank_start (by decide) (by decide)) hsplit (by intro h; cases h) offset,?_⟩
  rfl

theorem tokensAt_arrow (offset : Nat) (rest : List Char) :
    ∃ t stop, tokensAt offset ('=' :: '>' :: rest) = t :: tokensAt stop rest ∧
      t.isOperator "=>" = true := by
  have hsplit : splitToken ('=' :: '>' :: rest) = some (.verbatim .operator ['=','>'],rest) := rfl
  exact ⟨_,_,tokensAt_token (splitBlank_start (by decide) (by decide)) hsplit (by intro h; cases h) offset,rfl⟩

theorem tokensAt_minus (offset : Nat) (rest : List Char) :
    ∃ t stop, tokensAt offset ('-' :: rest) = t :: tokensAt stop rest ∧
      t.isOperator "-" = true := by
  have hsplit : splitToken ('-' :: rest) = some (.verbatim .operator ['-'],rest) := rfl
  exact ⟨_,_,tokensAt_token (splitBlank_start (by decide) (by decide)) hsplit (by intro h; cases h) offset,rfl⟩

theorem tokensAt_space (offset : Nat) (rest : List Char) :
    ∃ stop, tokensAt offset (' ' :: rest) = tokensAt stop rest :=
  ⟨_,tokensAt_blank (by decide) (by decide) offset rest⟩

theorem tokensAt_newline (offset : Nat) (rest : List Char) :
    ∃ stop, tokensAt offset ('\n' :: rest) = tokensAt stop rest :=
  ⟨_,tokensAt_blank (by decide) (by decide) offset rest⟩

end Symbols
section Numbers

open Decimal (AllDigits ExponentText FloatText digits)

theorem splitNumber_cons {c : Char} (h : (isDigit c || c == '.') = true) (cs : List Char) :
    splitNumber (c :: cs) = (c :: (splitNumber cs).1,(splitNumber cs).2) := by
  conv => lhs; unfold splitNumber
  simp only [h,if_true]

theorem splitNumber_sign {c : Char} (h : (c == '+' || c == '-') = true) (cs : List Char) :
    splitNumber ('e' :: c :: cs) = ('e' :: c :: (splitNumber cs).1,(splitNumber cs).2) := by
  have hletter : (isDigit 'e' || 'e' == '.') = false := by decide
  conv => lhs; unfold splitNumber
  simp only [hletter,h,Bool.false_eq_true,if_false,beq_self_eq_true,Bool.true_or,if_true]

theorem splitNumber_letter {c : Char} (h : (c == '+' || c == '-') = false) (cs : List Char) :
    splitNumber ('e' :: c :: cs) = ('e' :: (splitNumber (c :: cs)).1,(splitNumber (c :: cs)).2) := by
  have hletter : (isDigit 'e' || 'e' == '.') = false := by decide
  conv => lhs; unfold splitNumber
  simp only [hletter,h,Bool.false_eq_true,if_false,beq_self_eq_true,Bool.true_or,if_true]

theorem splitNumber_digits {cs : List Char} (h : AllDigits cs) (rest : List Char) :
    splitNumber (cs ++ rest) = (cs ++ (splitNumber rest).1,(splitNumber rest).2) := by
  induction cs with
  | nil => rfl
  | cons c cs ih =>
    have hc : isDigit c = true := h c List.mem_cons_self
    have hcs : AllDigits cs := fun d hd => h d (List.mem_cons_of_mem _ hd)
    rw [List.cons_append,splitNumber_cons (by rw [hc]; rfl),ih hcs,List.cons_append]

theorem splitNumber_end {rest : List Char} (h : NumberEnds rest) : splitNumber rest = ([],rest) := by
  cases rest with
  | nil => unfold splitNumber; rfl
  | cons c more =>
    obtain ⟨hpart,hpoint⟩ := h c rfl
    have hdigit : isDigit c = false := by
      refine Bool.eq_false_iff.mpr fun hd => ?_
      simp [isIdentifierPart,hd] at hpart
    have he : c ≠ 'e' := by
      rintro rfl
      exact absurd hpart (by decide)
    have hE : c ≠ 'E' := by
      rintro rfl
      exact absurd hpart (by decide)
    unfold splitNumber
    simp [hdigit,hpoint,he,hE]

theorem ne_of_isDigit {c d : Char} (hc : c.isDigit = true) (hd : d.isDigit = false) : c ≠ d := by
  rintro rfl
  rw [hc] at hd
  cases hd

theorem splitNumber_exponent {cs rest : List Char} {e : Int} (h : ExponentText cs e)
    (hr : NumberEnds rest) : splitNumber ('e' :: (cs ++ rest)) = ('e' :: cs,rest) := by
  have hd (n : Nat) : splitNumber (digits n ++ rest) = (digits n,rest) := by
    rw [splitNumber_digits (AllDigits.digits n),splitNumber_end hr,List.append_nil]
  cases h with
  | plain n =>
    obtain ⟨c,more,hc⟩ := List.exists_cons_of_ne_nil (Decimal.digits_ne_nil n)
    have hcd : c.isDigit = true := AllDigits.digits n c (by rw [hc]; exact List.mem_cons_self)
    have hsign : (c == '+' || c == '-') = false := by
      simp [ne_of_isDigit hcd (d := '+') rfl,ne_of_isDigit hcd (d := '-') rfl]
    have hn := hd n
    rw [hc,List.cons_append] at hn ⊢
    rw [splitNumber_letter hsign,hn]
  | plus n => rw [List.cons_append,splitNumber_sign rfl,hd]
  | minus n => rw [List.cons_append,splitNumber_sign rfl,hd]

theorem splitNumber_floatText {cs rest : List Char} {d : Decimal} (h : FloatText cs d)
    (hr : NumberEnds rest) : splitNumber (cs ++ rest) = (cs,rest) := by
  cases h with
  | point whole fraction hw hf hne =>
    rw [List.append_assoc,List.cons_append,splitNumber_digits hw,splitNumber_cons rfl,
      splitNumber_digits hf,splitNumber_end hr,List.append_nil]
  | exponent hw hne he =>
    rw [List.append_assoc,List.cons_append,splitNumber_digits hw,splitNumber_exponent he hr]
  | pointExponent hw hf hne he =>
    rw [List.append_assoc,List.cons_append,List.append_assoc,List.cons_append,
      splitNumber_digits hw,splitNumber_cons rfl,splitNumber_digits hf,splitNumber_exponent he hr]

theorem stopsInExponent_append (cs : List Char) {ds : List Char} (h : ds ≠ []) :
    stopsInExponent (cs ++ ds) = stopsInExponent ds := by
  obtain ⟨c,hc⟩ : ∃ c, ds.getLast? = some c := ⟨_,List.getLast?_eq_some_getLast h⟩
  unfold stopsInExponent
  rw [List.getLast?_append,hc,Option.some_or]

theorem stopsInExponent_digits {cs : List Char} (h : AllDigits cs) : stopsInExponent cs = false := by
  unfold stopsInExponent
  cases hl : cs.getLast? with
  | none => rfl
  | some c =>
    have hc := h c (List.mem_of_getLast? hl)
    simp [ne_of_isDigit hc (d := 'e') rfl,ne_of_isDigit hc (d := 'E') rfl,
      ne_of_isDigit hc (d := '+') rfl,ne_of_isDigit hc (d := '-') rfl]

theorem stopsInExponent_exponent {cs : List Char} {e : Int} (h : ExponentText cs e) :
    cs ≠ [] ∧ stopsInExponent cs = false := by
  have hd (n : Nat) := stopsInExponent_digits (AllDigits.digits n)
  have hne := Decimal.digits_ne_nil
  cases h with
  | plain n => exact ⟨hne n,hd n⟩
  | plus n => exact ⟨List.cons_ne_nil _ _,(stopsInExponent_append ['+'] (hne n)).trans (hd n)⟩
  | minus n => exact ⟨List.cons_ne_nil _ _,(stopsInExponent_append ['-'] (hne n)).trans (hd n)⟩

theorem stopsInExponent_floatText {cs : List Char} {d : Decimal} (h : FloatText cs d) :
    stopsInExponent cs = false := by
  cases h with
  | point whole fraction hw hf hne =>
    rw [stopsInExponent_append _ (List.cons_ne_nil _ _)]
    cases fraction with
    | nil => rfl
    | cons c more =>
      exact (stopsInExponent_append ['.'] (List.cons_ne_nil c more)).trans
        (stopsInExponent_digits hf)
  | @exponent whole rest e hw hne he =>
    obtain ⟨hrest,hs⟩ := stopsInExponent_exponent he
    rw [stopsInExponent_append _ (List.cons_ne_nil _ _)]
    exact (stopsInExponent_append ['e'] hrest).trans hs
  | @pointExponent whole fraction rest e hw hf hne he =>
    obtain ⟨hrest,hs⟩ := stopsInExponent_exponent he
    have htext : whole ++ '.' :: (fraction ++ 'e' :: rest) = (whole ++ '.' :: fraction ++ ['e']) ++ rest := by
      simp
    rw [htext,stopsInExponent_append _ hrest,hs]

theorem of_isDigit {c : Char} (h : isDigit c = true) :
    isBlank c = false ∧ c ≠ '/' ∧ (isIdentifierStart c || c == '\\') = false := by
  have hzero : '0'.val.toNat = 48 := rfl
  have hnine : '9'.val.toNat = 57 := rfl
  have hspace : ' '.val.toNat = 32 := rfl
  have hlower : 'a'.val.toNat = 97 := rfl
  have hupper : 'A'.val.toNat = 65 := rfl
  have hne := fun d (hd : d.isDigit = false) => ne_of_isDigit (d := d) (h : c.isDigit = true) hd
  simp only [isDigit,Bool.and_eq_true,decide_eq_true_eq,Char.le_def,UInt32.le_iff_toNat_le] at h
  refine ⟨Bool.eq_false_iff.mpr fun hb => ?_,hne '/' rfl,Bool.eq_false_iff.mpr fun hs => ?_⟩
  · simp only [isBlank,Bool.or_eq_true,Bool.and_eq_true,decide_eq_true_eq,beq_iff_eq,Char.lt_def,
      UInt32.lt_iff_toNat_lt] at hb
    rcases hb with hb | ⟨_,hb⟩
    · exact hne ' ' rfl hb
    · omega
  · simp only [isIdentifierStart,isLetter,Bool.or_eq_true,Bool.and_eq_true,decide_eq_true_eq,
      beq_iff_eq,Char.le_def,UInt32.le_iff_toNat_le] at hs
    rcases hs with ((hs | hs) | hs) | hs
    · omega
    · omega
    · exact hne '_' rfl hs
    · exact hne '\\' rfl hs

/-- A number that is followed by nothing that belongs to it is one token. -/
theorem tokensAt_number {c : Char} {cs rest : List Char} (hc : c.isDigit = true)
    (hsplit : splitNumber (c :: cs ++ rest) = (c :: cs,rest))
    (hstops : stopsInExponent (c :: cs) = false) (offset : Nat) :
    ∃ t stop, tokensAt offset (c :: cs ++ rest) = t :: tokensAt stop rest ∧ t.kind = .number ∧
      t.text = String.ofList (c :: cs) := by
  have hdigit : isDigit c = true := hc
  obtain ⟨hb,hslash,hstart⟩ := of_isDigit hdigit
  rw [List.cons_append] at hsplit
  have hnumber : Lexeme.ofNumber (c :: cs) = .verbatim .number (c :: cs) := by
    unfold Lexeme.ofNumber
    rw [hstops,if_neg (by simp)]
  have htoken : splitToken (c :: (cs ++ rest)) = some (.verbatim .number (c :: cs),rest) := by
    simp only [splitToken,hstart,hdigit,Bool.false_eq_true,if_false,if_true,hsplit,hnumber]
  rw [List.cons_append,tokensAt_token (splitBlank_start hb hslash) htoken (by intro h; cases h)]
  exact ⟨_,_,rfl,rfl,rfl⟩

theorem tokensAt_digits (n : Nat) {rest : List Char} (hr : NumberEnds rest) (offset : Nat) :
    ∃ t stop, tokensAt offset (digits n ++ rest) = t :: tokensAt stop rest ∧ t.kind = .number ∧
      t.text = String.ofList (digits n) := by
  have hd := AllDigits.digits n
  obtain ⟨c,cs,hc⟩ := List.exists_cons_of_ne_nil (Decimal.digits_ne_nil n)
  rw [hc] at hd ⊢
  refine tokensAt_number (hd c List.mem_cons_self) ?_ (stopsInExponent_digits hd) offset
  rw [splitNumber_digits hd,splitNumber_end hr,List.append_nil]

theorem FloatText.head {cs : List Char} {d : Decimal} (h : FloatText cs d) :
    ∃ c more, cs = c :: more ∧ c.isDigit = true := by
  cases h with
  | point whole fraction hw hf hne =>
    obtain ⟨c,more,rfl⟩ := List.exists_cons_of_ne_nil hne
    exact ⟨c,_,rfl,hw c List.mem_cons_self⟩
  | exponent hw hne =>
    obtain ⟨c,more,rfl⟩ := List.exists_cons_of_ne_nil hne
    exact ⟨c,_,rfl,hw c List.mem_cons_self⟩
  | pointExponent hw hf hne =>
    obtain ⟨c,more,rfl⟩ := List.exists_cons_of_ne_nil hne
    exact ⟨c,_,rfl,hw c List.mem_cons_self⟩

theorem tokensAt_float {cs rest : List Char} {d : Decimal} (h : FloatText cs d)
    (hr : NumberEnds rest) (offset : Nat) :
    ∃ t stop, tokensAt offset (cs ++ rest) = t :: tokensAt stop rest ∧ t.kind = .number ∧
      t.text = String.ofList cs := by
  have hsplit := splitNumber_floatText h hr
  have hstops := stopsInExponent_floatText h
  obtain ⟨c,more,rfl,hc⟩ := FloatText.head h
  exact tokensAt_number hc hsplit hstops offset

theorem numeral_float {text : String} {cs : List Char} {d : Decimal} (h : FloatText cs d)
    (ht : text = String.ofList cs) (negative : Bool) :
    Numeral text negative (.float (d.toBinary64 negative)) := by
  have hmem : '.' ∈ cs ∨ 'e' ∈ cs := by
    cases h with
    | point => simp
    | exponent => simp
    | pointExponent => simp
  subst ht
  refine .float ?_ ?_
  · rw [String.toList_ofList]
    rcases hmem with hmem | hmem
    · exact ⟨_,hmem,by decide⟩
    · exact ⟨_,hmem,by decide⟩
  · rw [String.toList_ofList]
    exact Decimal.read_floatText h

theorem numeral_int {text : String} {n : Nat} {negative : Bool} {i : Int64}
    (ht : text = String.ofList (digits n))
    (hi : i.toInt = if negative then -(n : Int) else n) : Numeral text negative (.int i) := by
  subst ht
  refine .int (fun c hc hm => ?_) ?_
  · rw [String.toList_ofList] at hc
    have hd := AllDigits.digits n c hc
    simp [floatMarks,ne_of_isDigit hd (d := '.') rfl,ne_of_isDigit hd (d := 'e') rfl,
      ne_of_isDigit hd (d := 'E') rfl] at hm
  · rw [String.toList_ofList,Decimal.ofDigits_digits]
    exact hi

end Numbers
section Quotes

/-- A character stands for itself or follows a backslash in another form. -/
theorem escapeChar_cases (c : Char) :
    (escapeChar c = [c] ∧ c ≠ '\'' ∧ c ≠ '\\') ∨
      ∃ d, escapeChar c = ['\\',d] ∧ unescape d = c := by
  unfold escapeChar
  split
  · exact .inr ⟨'n',rfl,rfl⟩
  · exact .inr ⟨'r',rfl,rfl⟩
  · exact .inr ⟨'t',rfl,rfl⟩
  · exact .inr ⟨'\'',rfl,rfl⟩
  · exact .inr ⟨'\\',rfl,rfl⟩
  next hq hb => exact .inl ⟨rfl,hq,hb⟩

theorem splitQuoted_plain {c : Char} (hq : c ≠ '\'') (hb : c ≠ '\\') (rest : List Char) :
    splitQuoted (c :: rest) = (splitQuoted rest).map fun (quoted,left) => (c :: quoted,left) := by
  conv => lhs; unfold splitQuoted
  split
  next heq => cases heq
  next heq => exact absurd (List.cons.inj heq).1 hq
  next heq => exact absurd (List.cons.inj heq).1 hb
  next heq => exact absurd (List.cons.inj heq).1 hb
  next heq =>
    obtain ⟨rfl,rfl⟩ := List.cons.inj heq
    rfl

theorem unquote_plain {c : Char} (hq : c ≠ '\'') (hb : c ≠ '\\') (rest : List Char) :
    unquote (c :: rest) = c :: unquote rest := by
  conv => lhs; unfold unquote
  split
  next heq => cases heq
  next heq => exact absurd (List.cons.inj heq).1 hq
  next heq => exact absurd (List.cons.inj heq).1 hb
  next heq =>
    obtain ⟨rfl,rfl⟩ := List.cons.inj heq
    rfl

/-- The escaped characters of a text and the closing quote are taken together. -/
theorem splitQuoted_escaped (cs rest : List Char) :
    splitQuoted (cs.flatMap escapeChar ++ '\'' :: rest) =
      some (cs.flatMap escapeChar ++ ['\''],rest) := by
  induction cs with
  | nil => simp [splitQuoted]
  | cons c cs ih =>
    rw [List.flatMap_cons,List.append_assoc,List.append_assoc]
    rcases escapeChar_cases c with ⟨he,hq,hb⟩ | ⟨d,he,_⟩
    · rw [he,List.singleton_append,List.singleton_append,splitQuoted_plain hq hb,ih]
      rfl
    · rw [he]
      simp only [List.cons_append,List.nil_append,splitQuoted,ih,Option.map_some]

theorem unquote_escaped (cs : List Char) : unquote (cs.flatMap escapeChar ++ ['\'']) = cs := by
  induction cs with
  | nil => simp [unquote]
  | cons c cs ih =>
    rw [List.flatMap_cons,List.append_assoc]
    rcases escapeChar_cases c with ⟨he,hq,hb⟩ | ⟨d,he,hd⟩
    · rw [he,List.singleton_append,unquote_plain hq hb,ih]
    · rw [he]
      simp only [List.cons_append,List.nil_append,unquote,ih,hd]

/-- A quoted text is the token at the front, up to its closing quote. -/
theorem splitToken_quoted (s : String) (rest : List Char) :
    splitToken (quotedChars s ++ rest) = some (⟨.text,s,quotedChars s⟩,rest) := by
  have htext : quotedChars s ++ rest = '\'' :: (s.toList.flatMap escapeChar ++ '\'' :: rest) := by
    simp [quotedChars]
  have hstart : (isIdentifierStart '\'' || '\'' == '\\') = false := by decide
  have hdigit : isDigit '\'' = false := by decide
  have hpunctuation : isPunctuation '\'' = false := by decide
  rw [htext]
  simp only [splitToken,hstart,hdigit,hpunctuation,Bool.false_eq_true,if_false,
    beq_self_eq_true,if_true,splitQuoted_escaped,unquote_escaped,String.ofList_toList]
  rfl

/-- It is not an error and has nothing before it, so the tokens of what is left come next. -/
theorem tokensAt_quoted_eq (s : String) (rest : List Char) (offset : Nat) :
    tokensAt offset (quotedChars s ++ rest) =
      ⟨.text,offset,offset + byteLength (quotedChars s),s⟩ ::
        tokensAt (offset + byteLength (quotedChars s)) rest := by
  have hblank : splitBlank (quotedChars s ++ rest) = ([],quotedChars s ++ rest) :=
    splitBlank_start (by decide) (by decide)
  exact tokensAt_token hblank (splitToken_quoted s rest) nofun offset

theorem tokensAt_quoted (s : String) (rest : List Char) (offset : Nat) :
    ∃ t stop, tokensAt offset (quotedChars s ++ rest) = t :: tokensAt stop rest ∧ t.kind = .text ∧
      t.text = s :=
  ⟨_,_,tokensAt_quoted_eq s rest offset,rfl,rfl⟩

end Quotes

end Wiring.Script
