import Mathlib
import Wiring.Proofs.Results
import Wiring.Proofs.Script.Grammar

/-!
# The parser accepts its grammar

What the grammar derives from a run of tokens, the parser reads from it, whatever follows
the run, as long as that cannot continue the phrase.
-/
namespace Wiring.Script

/-- Tokens that do not go on with any of the characters. -/
def Ends (cs : List Char) (tokens : List Token) : Prop :=
  ∀ c ∈ cs, afterCharacter? c tokens = none

/-- What goes on with a chain or makes an assignment of it. -/
def exprFollowers : List Char := ['.','(','=']

/-- What goes on with a run of expressions or entries. -/
def itemFollowers : List Char := ',' :: exprFollowers

namespace Ends

theorem of_character {cs : List Char} {t : Token} {c : Char} {rest : List Token}
    (h : t.isCharacter c = true) (hc : c ∉ cs) : Ends cs (t :: rest) := by
  intro d hd
  have hne : c ≠ d := fun e => hc (e ▸ hd)
  rw [afterCharacter?,Token.isCharacter_unique h hne,if_neg (by simp)]

theorem of_operator {cs : List Char} {t : Token} {s : String} {rest : List Token}
    (h : t.isOperator s = true) : Ends cs (t :: rest) := by
  intro d _
  have hd : t.isCharacter d = false := by
    have hk : t.kind = .operator := by simpa using (Bool.and_eq_true_iff.mp h).1
    simp [Token.isCharacter,hk]
  rw [afterCharacter?,hd,if_neg (by simp)]

theorem nil (cs : List Char) : Ends cs [] := fun _ _ => rfl

theorem expr {tokens : List Token} (h : Ends itemFollowers tokens) : Ends exprFollowers tokens :=
  fun c hc => h c (List.mem_cons_of_mem _ hc)

end Ends

variable {stop fuel : Nat} {t : Token} {ts us rest : List Token}

@[simp] theorem takeToken_ok (h : t.kind ≠ .error) : takeToken stop (t :: rest) = .ok (t,rest) :=
  if_neg h

@[simp] theorem takeName_ok (h : t.isName = true) : takeName stop (t :: rest) = .ok (t.text,rest) := by
  simp only [takeName,takeToken_ok (Token.not_error_of_isName h)]
  exact if_pos h

@[simp] theorem takeCharacter_ok {c : Char} (h : t.isCharacter c = true) :
    takeCharacter stop c (t :: rest) = .ok rest := by
  simp only [takeCharacter,takeToken_ok (Token.not_error_of_isCharacter h)]
  exact if_pos h

@[simp] theorem afterCharacter_some {c : Char} (h : t.isCharacter c = true) :
    afterCharacter? c (t :: rest) = some rest := if_pos h

theorem constant?_eq_none (h : t.kind ≠ .keyword) : constant? t = none := by
  have hk : ∀ word, t.isKeyword word = false := by
    intro word
    simp [Token.isKeyword,h]
  simp only [constant?,hk,Bool.false_eq_true,if_false]

theorem constant?_kind {value : Literal} (h : constant? t = some value) : t.kind = .keyword := by
  refine Decidable.byContradiction fun hk => ?_
  rw [constant?_eq_none hk] at h
  cases h

/-- The parser's constants are those of the grammar. -/
theorem constant?_eq_some {value : Literal} :
    constant? t = some value ↔ ∃ word, t.isKeyword word = true ∧ Constant word value := by
  constructor
  · intro h
    unfold constant? at h
    split at h
    next hw => exact ⟨_,hw,Option.some.inj h ▸ .null⟩
    split at h
    next hw => exact ⟨_,hw,Option.some.inj h ▸ .true⟩
    split at h
    next hw => exact ⟨_,hw,Option.some.inj h ▸ .false⟩
    split at h
    next hw => exact ⟨_,hw,Option.some.inj h ▸ .nan⟩
    split at h
    next hw => exact ⟨_,hw,Option.some.inj h ▸ .infinity⟩
    next => cases h
  · rintro ⟨word,hw,h⟩
    obtain ⟨hk,ht⟩ : t.kind = .keyword ∧ t.text = word := by simpa [Token.isKeyword] using hw
    cases h with
    | null | true | false | nan | infinity => simp [constant?,Token.isKeyword,hk,ht]

theorem isFloat_eq_true (hk : t.kind = .number) :
    t.isFloat = true ↔ ∃ c ∈ t.text.toList, c ∈ floatMarks := by
  simp [Token.isFloat,hk,floatMarks,or_assoc]

theorem int64?_eq_some {n : Int} {i : Int64} : int64? n = some i ↔ i.toInt = n := by
  unfold int64?
  constructor
  · intro h
    split at h
    next hn =>
      obtain rfl := Option.some.inj h
      exact Int64.toInt_ofInt_of_le hn.1 (Int.lt_add_one_of_le hn.2)
    next => cases h
  · rintro rfl
    rw [if_pos ⟨i.le_toInt,i.toInt_le⟩,Int64.ofInt_toInt]

/-- The parser's numbers are those of the grammar. -/
theorem numberLiteral_eq_ok {negative : Bool} {e : Expr} (hk : t.kind = .number) :
    numberLiteral t negative = .ok e ↔
      ∃ value, e = .literal value ∧ Numeral t.text negative value := by
  constructor
  · intro h
    unfold numberLiteral at h
    dsimp only at h
    split at h
    next hf =>
      split at h
      next d hd => exact ⟨_,(Except.ok.inj h).symm,.float ((isFloat_eq_true hk).mp hf) hd⟩
      next => cases h
    next hf =>
      split at h
      next i hi =>
        refine ⟨_,(Except.ok.inj h).symm,.int (fun c hc hm => ?_) (int64?_eq_some.mp hi)⟩
        exact hf ((isFloat_eq_true hk).mpr ⟨c,hc,hm⟩)
      next => cases h
  · rintro ⟨value,rfl,h⟩
    unfold numberLiteral
    dsimp only
    cases h with
    | int hPlain hi =>
      have hf : ¬t.isFloat = true := fun hf => by
        obtain ⟨c,hc,hm⟩ := (isFloat_eq_true hk).mp hf
        exact hPlain c hc hm
      rw [if_neg hf,int64?_eq_some.mpr hi]
    | float hMarked hd => rw [if_pos ((isFloat_eq_true hk).mpr hMarked),hd]

theorem isCharacter_kind {c : Char} (h : t.isCharacter c = true) : t.kind = .character := by
  simpa using (Bool.and_eq_true_iff.mp h).1

theorem isOperator_kind {s : String} (h : t.isOperator s = true) : t.kind = .operator := by
  simpa using (Bool.and_eq_true_iff.mp h).1

theorem isKeyword_kind {s : String} (h : t.isKeyword s = true) : t.kind = .keyword := by
  simpa using (Bool.and_eq_true_iff.mp h).1

section Primary

theorem parsePrimary_constant {value : Literal} (h : constant? t = some value) :
    parsePrimary stop (fuel + 1) (t :: rest) = .ok (.literal value,rest) := by
  have hk : t.kind ≠ .error := by simp [constant?_kind h]
  simp only [parsePrimary,takeToken_ok hk,ok_bind,h,pure_ok]

theorem parsePrimary_number {e : Expr} (hk : t.kind = .number)
    (h : numberLiteral t false = .ok e) :
    parsePrimary stop (fuel + 1) (t :: rest) = .ok (e,rest) := by
  have he : t.kind ≠ .error := by simp [hk]
  have hc : constant? t = none := constant?_eq_none (by simp [hk])
  simp only [parsePrimary,takeToken_ok he,ok_bind,hc,hk,if_true,h,pure_ok]

theorem parsePrimary_minus {minus : Token} (hm : minus.isOperator "-" = true)
    (hk : t.kind ≠ .error) :
    parsePrimary stop (fuel + 1) (minus :: t :: rest) =
      if t.isKeyword "INF" then .ok (.literal (.float (.infinity true)),rest)
      else if t.kind = .number then (numberLiteral t true).map fun e => (e,rest)
      else .error ⟨t.start,.numberExpected⟩ := by
  have hkind := isOperator_kind hm
  have he : minus.kind ≠ .error := by simp [hkind]
  have hc : constant? minus = none := constant?_eq_none (by simp [hkind])
  have hn : ¬minus.kind = .number := by simp [hkind]
  simp only [parsePrimary,takeToken_ok he,ok_bind,hc,hn,if_false,hm,if_true,takeToken_ok hk,pure_ok,
    throw_error]
  rfl

theorem parsePrimary_text (hk : t.kind = .text) :
    parsePrimary stop (fuel + 1) (t :: rest) = .ok (.text t.text,rest) := by
  have he : t.kind ≠ .error := by simp [hk]
  have hc : constant? t = none := constant?_eq_none (by simp [hk])
  have hm : t.isOperator "-" = false := by simp [Token.isOperator,hk]
  simp only [parsePrimary,takeToken_ok he,ok_bind,hc,hk,hm,reduceCtorEq,if_false,if_true,
    Bool.false_eq_true,pure_ok]

theorem parsePrimary_new {className left : Token} {es : List Expr}
    (hw : t.isKeyword "new" = true) (hn : className.isName = true)
    (hl : left.isCharacter '(' = true)
    (h : parseArguments stop fuel us = .ok (es,rest)) :
    parsePrimary stop (fuel + 1) (t :: className :: left :: us) =
      .ok (.construct className.text es,rest) := by
  have hk := isKeyword_kind hw
  have he : t.kind ≠ .error := by simp [hk]
  have htext : t.text = "new" := by simpa [Token.isKeyword,hk] using hw
  have hc : constant? t = none := by simp [constant?,Token.isKeyword,hk,htext]
  have hm : t.isOperator "-" = false := by simp [Token.isOperator,hk]
  simp only [parsePrimary,takeToken_ok he,ok_bind,hc,hk,hm,reduceCtorEq,if_false,if_true,
    Bool.false_eq_true,pure_ok,hw,takeName_ok hn,takeCharacter_ok hl,h]

theorem parsePrimary_var (hk : t.kind = .identifier) :
    parsePrimary stop (fuel + 1) (t :: rest) = .ok (.var t.text,rest) := by
  have he : t.kind ≠ .error := by simp [hk]
  have hc : constant? t = none := constant?_eq_none (by simp [hk])
  have hm : t.isOperator "-" = false := by simp [Token.isOperator,hk]
  have hw : t.isKeyword "new" = false := by simp [Token.isKeyword,hk]
  simp only [parsePrimary,takeToken_ok he,ok_bind,hc,hk,hm,hw,reduceCtorEq,if_false,if_true,
    Bool.false_eq_true,pure_ok]

theorem parsePrimary_bracket (h : t.isCharacter '[' = true) :
    parsePrimary stop (fuel + 1) (t :: rest) = parseArray stop fuel rest := by
  have hk := isCharacter_kind h
  have he : t.kind ≠ .error := by simp [hk]
  have hc : constant? t = none := constant?_eq_none (by simp [hk])
  have hm : t.isOperator "-" = false := by simp [Token.isOperator,hk]
  have hw : t.isKeyword "new" = false := by simp [Token.isKeyword,hk]
  simp only [parsePrimary,takeToken_ok he,ok_bind,hc,hk,hm,hw,reduceCtorEq,if_false,if_true,
    Bool.false_eq_true,h]

/-- The one part between parentheses stands for itself, several are a tuple. -/
def groupOf : List Expr → Expr
  | [e] => e
  | parts => .tuple parts

theorem parsePrimary_parenthesis {es : List Expr} {right : Token}
    (h : t.isCharacter '(' = true) (hr : right.isCharacter ')' = true)
    (hItems : parseItems stop fuel us = .ok (es,right :: rest)) :
    parsePrimary stop (fuel + 1) (t :: us) = .ok (groupOf es,rest) := by
  have hk := isCharacter_kind h
  have he : t.kind ≠ .error := by simp [hk]
  have hc : constant? t = none := constant?_eq_none (by simp [hk])
  have hm : t.isOperator "-" = false := by simp [Token.isOperator,hk]
  have hw : t.isKeyword "new" = false := by simp [Token.isKeyword,hk]
  have hb : t.isCharacter '[' = false := Token.isCharacter_unique h (by decide)
  simp only [parsePrimary,takeToken_ok he,ok_bind,hc,hk,hm,hw,hb,reduceCtorEq,if_false,if_true,
    Bool.false_eq_true,h,hItems,takeCharacter_ok hr]
  rcases es with _ | ⟨e,_ | ⟨d,more⟩⟩
  · rfl
  · rfl
  · rfl

end Primary

/-- The reader of a phrase takes the tokens of the run and leaves what follows them. A
chain is read up to its last property or call, where more may follow; of entries the first
key is read before it is known to be one. -/
def Reads (stop : Nat) (ts : List Token) : Phrase → Prop
  | .expr e => ∀ fuel rest, 8 * ts.length + 2 ≤ fuel → Ends exprFollowers rest →
      parseExpr stop fuel (ts ++ rest) = .ok (e,rest)
  | .chain e => ∀ fuel rest, 8 * ts.length ≤ fuel → ∃ k ≤ ts.length,
      parsePostfix stop (fuel + 1) (ts ++ rest) = parseSuffixes stop (fuel - k) e rest
  | .primary e => ∀ fuel rest, 8 * ts.length ≤ fuel →
      parsePrimary stop fuel (ts ++ rest) = .ok (e,rest)
  | .arguments es => ∀ fuel rest right, 8 * ts.length + 4 ≤ fuel → right.isCharacter ')' = true →
      parseArguments stop fuel (ts ++ right :: rest) = .ok (es,rest)
  | .items es => ∀ fuel rest, 8 * ts.length + 3 ≤ fuel → Ends itemFollowers rest →
      parseItems stop fuel (ts ++ rest) = .ok (es,rest)
  | .entries es => ∃ keyExpr arrow us, arrow.isOperator "=>" = true ∧
      ∀ fuel rest, 8 * ts.length + 3 ≤ fuel → Ends itemFollowers rest →
        parseExpr stop fuel (ts ++ rest) = .ok (keyExpr,arrow :: (us ++ rest)) ∧
        parseEntries stop fuel keyExpr (arrow :: (us ++ rest)) = .ok (es,rest)

/-- A token that an expression can begin with. -/
def Begins (t : Token) : Prop :=
  t.isCharacter ')' = false ∧ t.isCharacter ']' = false ∧ t.isKeyword "namespace" = false ∧
    t.isKeyword "return" = false

theorem begins_of_kind (hc : t.kind ≠ .character) (hk : t.kind ≠ .keyword) : Begins t := by
  simp [Begins,Token.isCharacter,Token.isKeyword,hc,hk]

theorem begins_of_character {c : Char} (h : t.isCharacter c = true) (hr : c ≠ ')') (hb : c ≠ ']') :
    Begins t := by
  have hk := isCharacter_kind h
  exact ⟨Token.isCharacter_unique h hr,Token.isCharacter_unique h hb,by simp [Token.isKeyword,hk],
    by simp [Token.isKeyword,hk]⟩

theorem begins_of_keyword {word : String} (h : t.isKeyword word = true) (hn : word ≠ "namespace")
    (hr : word ≠ "return") : Begins t := by
  have hk := isKeyword_kind h
  have ht : t.text = word := by simpa [Token.isKeyword,hk] using h
  exact ⟨by simp [Token.isCharacter,hk],by simp [Token.isCharacter,hk],
    by simp [Token.isKeyword,ht,hn],by simp [Token.isKeyword,ht,hr]⟩

theorem begins_of_constant {value : Literal} (h : constant? t = some value) : Begins t := by
  have hk := constant?_kind h
  refine ⟨by simp [Token.isCharacter,hk],by simp [Token.isCharacter,hk],?_,?_⟩
  · refine Bool.eq_false_iff.mpr fun hw => ?_
    have ht : t.text = "namespace" := by simpa [Token.isKeyword,hk] using hw
    simp [constant?,Token.isKeyword,hk,ht] at h
  · refine Bool.eq_false_iff.mpr fun hw => ?_
    have ht : t.text = "return" := by simpa [Token.isKeyword,hk] using hw
    simp [constant?,Token.isKeyword,hk,ht] at h

/-- All phrases but an empty run of arguments have a token to begin with. -/
theorem Derives.begins {φ : Phrase} (h : Derives ts φ) :
    φ = .arguments [] ∨ ∃ t us, ts = t :: us ∧ Begins t := by
  induction h with
  | noArguments => exact .inl rfl
  | ofChain _ ih | ofPrimary _ ih | ofItems _ ih | item _ ih =>
    rcases ih with h | h
    · cases h
    · exact .inr h
  | assign _ _ _ _ ih | prop _ _ _ ih | call _ _ _ _ ih | items _ _ _ ih
  | entry _ _ _ _ ih | entries _ _ _ _ _ _ ih =>
    rcases ih with h | ⟨t,us,rfl,hb⟩
    · cases h
    · exact .inr ⟨t,_,rfl,hb⟩
  | constant hw h => exact .inr ⟨_,_,rfl,begins_of_constant (constant?_eq_some.mpr ⟨_,hw,h⟩)⟩
  | number hk => exact .inr ⟨_,_,rfl,begins_of_kind (by simp [hk]) (by simp [hk])⟩
  | negative hm | negativeInfinity hm =>
    have hk := isOperator_kind hm
    exact .inr ⟨_,_,rfl,begins_of_kind (by simp [hk]) (by simp [hk])⟩
  | text hk | var hk => exact .inr ⟨_,_,rfl,begins_of_kind (by simp [hk]) (by simp [hk])⟩
  | new hw => exact .inr ⟨_,_,rfl,begins_of_keyword hw (by decide) (by decide)⟩
  | noItems hl | list hl | keyed hl | group hl | tuple hl =>
    exact .inr ⟨_,_,rfl,begins_of_character hl (by decide) (by decide)⟩

theorem Derives.afterCharacter_none {φ : Phrase} {c : Char} (h : Derives ts φ)
    (hne : φ ≠ .arguments []) (hc : c = ')' ∨ c = ']') :
    afterCharacter? c (ts ++ rest) = none := by
  rcases h.begins with h | ⟨t,us,rfl,hb⟩
  · exact absurd h hne
  · rcases hc with rfl | rfl
    · simp [afterCharacter?,hb.1]
    · simp [afterCharacter?,hb.2.1]

section Steps

theorem parseSuffixes_end {e : Expr} (h : afterCharacter? '.' rest = none)
    (hc : afterCharacter? '(' rest = none) :
    parseSuffixes stop (fuel + 1) e rest = .ok (e,rest) := by
  simp only [parseSuffixes,h,hc,pure_ok]

theorem parseSuffixes_prop {e : Expr} {point name : Token} (hp : point.isCharacter '.' = true)
    (hn : name.isName = true) :
    parseSuffixes stop (fuel + 1) e (point :: name :: rest) =
      parseSuffixes stop fuel (.prop e name.text) rest := by
  simp only [parseSuffixes,afterCharacter_some hp,takeName_ok hn,ok_bind]

theorem parseSuffixes_call {e : Expr} {left : Token} {es : List Expr}
    (hl : left.isCharacter '(' = true) (h : parseArguments stop fuel us = .ok (es,rest)) :
    parseSuffixes stop (fuel + 1) e (left :: us) = parseSuffixes stop fuel (.call e es) rest := by
  have hp : afterCharacter? '.' (left :: us) = none := by
    simp [afterCharacter?,Token.isCharacter_unique hl (d := '.') (by decide)]
  simp only [parseSuffixes,hp,afterCharacter_some hl,h,ok_bind]

theorem parseExpr_plain {e : Expr} (h : parsePostfix stop fuel ts = .ok (e,rest))
    (hr : afterCharacter? '=' rest = none) : parseExpr stop (fuel + 1) ts = .ok (e,rest) := by
  simp only [parseExpr,h,ok_bind,hr,pure_ok]

theorem parseExpr_assign {target value e : Expr} (h : parsePostfix stop fuel ts = .ok (target,t :: us))
    (ht : t.isCharacter '=' = true) (hv : parseExpr stop fuel us = .ok (value,rest))
    (ha : Assigns target value e) : parseExpr stop (fuel + 1) ts = .ok (e,rest) := by
  have hAssign : assignTo (offsetAt stop ts) value target = .ok e := by
    cases ha with
    | var => rfl
    | prop => rfl
  simp only [parseExpr,h,ok_bind,afterCharacter_some ht,hv,hAssign,pure_ok]

theorem parseItems_one {e : Expr} (h : parseExpr stop fuel ts = .ok (e,rest))
    (hr : afterCharacter? ',' rest = none) : parseItems stop (fuel + 1) ts = .ok ([e],rest) := by
  simp only [parseItems,h,ok_bind,hr,pure_ok]

theorem parseItems_more {e : Expr} {es : List Expr} (h : parseExpr stop fuel ts = .ok (e,t :: us))
    (ht : t.isCharacter ',' = true) (hItems : parseItems stop fuel us = .ok (es,rest)) :
    parseItems stop (fuel + 1) ts = .ok (e :: es,rest) := by
  simp only [parseItems,h,ok_bind,afterCharacter_some ht,hItems,pure_ok]

theorem parseArguments_none {right : Token} (h : right.isCharacter ')' = true) :
    parseArguments stop (fuel + 1) (right :: rest) = .ok ([],rest) := by
  simp only [parseArguments,afterCharacter_some h,pure_ok]

theorem parseArguments_items {es : List Expr} {right : Token}
    (hb : afterCharacter? ')' ts = none) (h : parseItems stop fuel ts = .ok (es,right :: rest))
    (hr : right.isCharacter ')' = true) :
    parseArguments stop (fuel + 1) ts = .ok (es,rest) := by
  simp only [parseArguments,hb,h,ok_bind,takeCharacter_ok hr,pure_ok]

theorem parseArray_none {right : Token} (h : right.isCharacter ']' = true) :
    parseArray stop (fuel + 1) (right :: rest) = .ok (.list [],rest) := by
  simp only [parseArray,afterCharacter_some h,pure_ok]

theorem not_isOperator_of_character {c : Char} {s : String} (h : t.isCharacter c = true) :
    t.isOperator s = false := by
  simp [Token.isOperator,isCharacter_kind h]

/-- An array without keys is read like a run of expressions. -/
theorem parseArray_items {es : List Expr} {right : Token} (hb : afterCharacter? ']' ts = none)
    (h : parseItems stop (fuel + 1) ts = .ok (es,right :: rest)) (hr : right.isCharacter ']' = true) :
    parseArray stop (fuel + 1) ts = .ok (.list es,rest) := by
  simp only [parseItems] at h
  obtain ⟨⟨e,us⟩,he,h⟩ := bind_eq_ok.mp h
  cases us with
  | nil => simp [afterCharacter?] at h
  | cons t us =>
    by_cases ht : t.isCharacter ',' = true
    · -- The comma comes next, so the rest is a run of its own.
      simp only [afterCharacter_some ht] at h
      obtain ⟨⟨items,vs⟩,hItems,h⟩ := bind_eq_ok.mp h
      obtain ⟨rfl,rfl⟩ : e :: items = es ∧ vs = right :: rest := by simpa using h
      simp only [parseArray,hb,he,ok_bind,not_isOperator_of_character ht,Bool.false_eq_true,
        if_false,afterCharacter_some ht,hItems,takeCharacter_ok hr,pure_ok]
    · have hcomma : afterCharacter? ',' (t :: us) = none := by simp [afterCharacter?,ht]
      simp only [hcomma] at h
      obtain ⟨rfl,rfl,rfl⟩ : [e] = es ∧ t = right ∧ us = rest := by simpa using h
      simp only [parseArray,hb,he,ok_bind,not_isOperator_of_character hr,Bool.false_eq_true,
        if_false,hcomma,takeCharacter_ok hr,pure_ok]

theorem parseArray_keyed {keyExpr : Expr} {es : List (ArrayKey × Expr)} {arrow right : Token}
    (hb : afterCharacter? ']' ts = none) (h : parseExpr stop fuel ts = .ok (keyExpr,arrow :: us))
    (ha : arrow.isOperator "=>" = true)
    (hEntries : parseEntries stop fuel keyExpr (arrow :: us) = .ok (es,right :: rest))
    (hr : right.isCharacter ']' = true) :
    parseArray stop (fuel + 1) ts = .ok (.keyed es,rest) := by
  simp only [parseArray,hb,h,ok_bind,ha,if_true,hEntries,takeCharacter_ok hr,pure_ok]

theorem arrayKey_ok {offset : Nat} {keyExpr : Expr} {key : ArrayKey} (h : KeyExpr keyExpr key) :
    arrayKey offset keyExpr = .ok key := by
  cases h with
  | int => rfl
  | text => rfl

theorem parseEntries_one {keyExpr e : Expr} {key : ArrayKey} {arrow : Token}
    (ha : arrow.isOperator "=>" = true) (hk : KeyExpr keyExpr key)
    (h : parseExpr stop fuel us = .ok (e,rest)) (hr : afterCharacter? ',' rest = none) :
    parseEntries stop (fuel + 1) keyExpr (arrow :: us) = .ok ([(key,e)],rest) := by
  simp only [parseEntries,takeToken_ok (Token.not_error_of_isOperator ha),ok_bind,ha,if_true,
    arrayKey_ok hk,h,hr,pure_ok]

theorem parseEntries_more {keyExpr nextKey e : Expr} {key : ArrayKey} {arrow : Token}
    {es : List (ArrayKey × Expr)} {vs : List Token} (ha : arrow.isOperator "=>" = true)
    (hk : KeyExpr keyExpr key) (h : parseExpr stop fuel us = .ok (e,t :: ts))
    (ht : t.isCharacter ',' = true) (hNext : parseExpr stop fuel ts = .ok (nextKey,vs))
    (hEntries : parseEntries stop fuel nextKey vs = .ok (es,rest)) :
    parseEntries stop (fuel + 1) keyExpr (arrow :: us) = .ok ((key,e) :: es,rest) := by
  simp only [parseEntries,takeToken_ok (Token.not_error_of_isOperator ha),ok_bind,ha,if_true,
    arrayKey_ok hk,h,afterCharacter_some ht,hNext,hEntries,pure_ok]

end Steps

theorem Derives.length_pos {φ : Phrase} (h : Derives ts φ) (hne : φ ≠ .arguments []) :
    0 < ts.length := by
  rcases h.begins with h | ⟨t,us,rfl,_⟩
  · exact absurd h hne
  · exact Nat.succ_pos _

/-- The parser reads every phrase of the grammar. -/
theorem Derives.reads {φ : Phrase} (h : Derives ts φ) (stop : Nat) : Reads stop ts φ := by
  induction h with
  | @ofChain ts e h ih =>
    intro fuel rest hf hr
    have hpos := h.length_pos (by simp)
    obtain ⟨n,rfl⟩ : ∃ n, fuel = n + 2 := ⟨fuel - 2,by omega⟩
    obtain ⟨k,hk,hread⟩ := ih n rest (by omega)
    obtain ⟨m,hm⟩ : ∃ m, n - k = m + 1 := ⟨n - k - 1,by omega⟩
    rw [hm,parseSuffixes_end (hr '.' (by decide)) (hr '(' (by decide))] at hread
    exact parseExpr_plain hread (hr '=' (by decide))
  | @assign ts us t target value e h ht _ ha ih ihv =>
    intro fuel rest hf hr
    have hpos := h.length_pos (by simp)
    rw [List.length_append,List.length_cons] at hf
    obtain ⟨n,rfl⟩ : ∃ n, fuel = n + 2 := ⟨fuel - 2,by omega⟩
    obtain ⟨k,hk,hread⟩ := ih n (t :: (us ++ rest)) (by omega)
    obtain ⟨m,hm⟩ : ∃ m, n - k = m + 1 := ⟨n - k - 1,by omega⟩
    have hEnds : Ends ['.','('] (t :: (us ++ rest)) := .of_character ht (by decide)
    rw [hm,parseSuffixes_end (hEnds '.' (by decide)) (hEnds '(' (by decide))] at hread
    rw [List.append_assoc,List.cons_append]
    exact parseExpr_assign hread ht (ihv (n + 1) rest (by omega) hr) ha
  | @ofPrimary ts e h ih =>
    intro fuel rest hf
    refine ⟨0,Nat.zero_le _,?_⟩
    simp only [parsePostfix,ih fuel rest hf,ok_bind,Nat.sub_zero]
  | @prop ts point name e h hp hn ih =>
    intro fuel rest hf
    have hpos := h.length_pos (by simp)
    rw [List.length_append,List.length_cons,List.length_cons,List.length_nil] at hf
    obtain ⟨k,hk,hread⟩ := ih fuel (point :: name :: rest) (by omega)
    obtain ⟨m,hm⟩ : ∃ m, fuel - k = m + 1 := ⟨fuel - k - 1,by omega⟩
    refine ⟨k + 1,by rw [List.length_append,List.length_cons]; omega,?_⟩
    rw [List.append_assoc,List.cons_append,List.cons_append,List.nil_append,hread,hm,
      parseSuffixes_prop hp hn,Nat.sub_add_eq,hm]
    rfl
  | @call ts us left right e es h hl _ hr ih iha =>
    intro fuel rest hf
    have hpos := h.length_pos (by simp)
    rw [List.length_append,List.length_cons,List.length_append,List.length_singleton] at hf
    obtain ⟨k,hk,hread⟩ := ih fuel (left :: (us ++ right :: rest)) (by omega)
    obtain ⟨m,hm⟩ : ∃ m, fuel - k = m + 1 := ⟨fuel - k - 1,by omega⟩
    refine ⟨k + 1,by rw [List.length_append,List.length_cons]; omega,?_⟩
    have hArguments := iha m rest right (by omega) hr
    have htext : ts ++ left :: (us ++ [right]) ++ rest = ts ++ left :: (us ++ right :: rest) := by
      simp
    rw [htext,hread,hm,parseSuffixes_call hl hArguments,Nat.sub_add_eq,hm]
    rfl
  | noArguments =>
    intro fuel rest right hf hr
    obtain ⟨n,rfl⟩ : ∃ n, fuel = n + 1 := ⟨fuel - 1,by omega⟩
    exact parseArguments_none hr
  | @ofItems ts es h ih =>
    intro fuel rest right hf hr
    obtain ⟨n,rfl⟩ : ∃ n, fuel = n + 1 := ⟨fuel - 1,by omega⟩
    exact parseArguments_items (h.afterCharacter_none (by simp) (.inl rfl))
      (ih n (right :: rest) (by omega) (.of_character hr (by decide))) hr
  | @item ts e h ih =>
    intro fuel rest hf hr
    obtain ⟨n,rfl⟩ : ∃ n, fuel = n + 1 := ⟨fuel - 1,by omega⟩
    exact parseItems_one (ih n rest (by omega) hr.expr) (hr ',' (by decide))
  | @items ts us comma e es h hc _ ih ihs =>
    intro fuel rest hf hr
    rw [List.length_append,List.length_cons] at hf
    obtain ⟨n,rfl⟩ : ∃ n, fuel = n + 1 := ⟨fuel - 1,by omega⟩
    rw [List.append_assoc,List.cons_append]
    exact parseItems_more (ih n (comma :: (us ++ rest)) (by omega) (.of_character hc (by decide))) hc
      (ihs n rest (by omega) hr)
  | @entry ts us arrow keyExpr e key _ ha hk h ihk ih =>
    refine ⟨keyExpr,arrow,us,ha,?_⟩
    intro fuel rest hf hr
    rw [List.length_append,List.length_cons] at hf
    obtain ⟨n,rfl⟩ : ∃ n, fuel = n + 1 := ⟨fuel - 1,by omega⟩
    rw [List.append_assoc,List.cons_append]
    exact ⟨ihk (n + 1) (arrow :: (us ++ rest)) (by omega) (.of_operator ha),
      parseEntries_one ha hk (ih n rest (by omega) hr.expr) (hr ',' (by decide))⟩
  | @entries ts us vs arrow comma keyExpr e key es _ ha hk h hc _ ihk ih ihs =>
    refine ⟨keyExpr,arrow,us ++ comma :: vs,ha,?_⟩
    intro fuel rest hf hr
    rw [List.length_append,List.length_cons,List.length_append,List.length_cons] at hf
    obtain ⟨n,rfl⟩ : ∃ n, fuel = n + 1 := ⟨fuel - 1,by omega⟩
    obtain ⟨nextKey,nextArrow,ws,hNextArrow,hNext⟩ := ihs
    obtain ⟨hNextKey,hEntries⟩ := hNext n rest (by omega) hr
    have hValue := ih n (comma :: (vs ++ rest)) (by omega) (.of_character hc (by decide))
    have htext : us ++ comma :: vs ++ rest = us ++ comma :: (vs ++ rest) := by simp
    rw [List.append_assoc,List.cons_append,htext]
    exact ⟨ihk (n + 1) (arrow :: (us ++ comma :: (vs ++ rest))) (by omega) (.of_operator ha),
      parseEntries_more ha hk hValue hc hNextKey hEntries⟩
  | @constant t word value hw h =>
    intro fuel rest hf
    rw [List.length_singleton] at hf
    obtain ⟨n,rfl⟩ : ∃ n, fuel = n + 1 := ⟨fuel - 1,by omega⟩
    exact parsePrimary_constant (constant?_eq_some.mpr ⟨word,hw,h⟩)
  | @number t value hk h =>
    intro fuel rest hf
    rw [List.length_singleton] at hf
    obtain ⟨n,rfl⟩ : ∃ n, fuel = n + 1 := ⟨fuel - 1,by omega⟩
    exact parsePrimary_number hk ((numberLiteral_eq_ok hk).mpr ⟨value,rfl,h⟩)
  | @negative minus t value hm hk h =>
    intro fuel rest hf
    rw [List.length_cons] at hf
    obtain ⟨n,rfl⟩ : ∃ n, fuel = n + 1 := ⟨fuel - 1,by omega⟩
    have hw : t.isKeyword "INF" = false := by simp [Token.isKeyword,hk]
    rw [List.cons_append,List.cons_append,parsePrimary_minus hm (by simp [hk]),hw,
      if_neg (by simp),if_pos hk,(numberLiteral_eq_ok hk).mpr ⟨value,rfl,h⟩]
    rfl
  | @negativeInfinity minus t hm h =>
    intro fuel rest hf
    rw [List.length_cons] at hf
    obtain ⟨n,rfl⟩ : ∃ n, fuel = n + 1 := ⟨fuel - 1,by omega⟩
    rw [List.cons_append,List.cons_append,parsePrimary_minus hm (Token.not_error_of_isKeyword h),
      if_pos h]
    rfl
  | @text t hk =>
    intro fuel rest hf
    rw [List.length_singleton] at hf
    obtain ⟨n,rfl⟩ : ∃ n, fuel = n + 1 := ⟨fuel - 1,by omega⟩
    exact parsePrimary_text hk
  | @new ts word className left right es hw hn hl _ hr ih =>
    intro fuel rest hf
    simp only [List.length_cons,List.length_append,List.length_nil] at hf
    obtain ⟨n,rfl⟩ : ∃ n, fuel = n + 1 := ⟨fuel - 1,by omega⟩
    have htext : word :: className :: left :: (ts ++ [right]) ++ rest =
        word :: className :: left :: (ts ++ right :: rest) := by simp
    rw [htext]
    exact parsePrimary_new hw hn hl (ih n rest right (by omega) hr)
  | @var t hk =>
    intro fuel rest hf
    rw [List.length_singleton] at hf
    obtain ⟨n,rfl⟩ : ∃ n, fuel = n + 1 := ⟨fuel - 1,by omega⟩
    exact parsePrimary_var hk
  | @noItems left right hl hr =>
    intro fuel rest hf
    rw [List.length_cons] at hf
    obtain ⟨n,rfl⟩ : ∃ n, fuel = n + 2 := ⟨fuel - 2,by omega⟩
    exact (parsePrimary_bracket hl).trans (parseArray_none hr)
  | @list ts left right es hl h hr ih =>
    intro fuel rest hf
    simp only [List.length_cons,List.length_append,List.length_nil] at hf
    obtain ⟨n,rfl⟩ : ∃ n, fuel = n + 2 := ⟨fuel - 2,by omega⟩
    have hItems := ih (n + 1) (right :: rest) (by omega) (.of_character hr (by decide))
    rw [List.cons_append,List.append_assoc,parsePrimary_bracket hl]
    exact parseArray_items (h.afterCharacter_none (by simp) (.inr rfl)) hItems hr
  | @keyed ts left right es hl h hr ih =>
    intro fuel rest hf
    simp only [List.length_cons,List.length_append,List.length_nil] at hf
    obtain ⟨n,rfl⟩ : ∃ n, fuel = n + 2 := ⟨fuel - 2,by omega⟩
    obtain ⟨keyExpr,arrow,us,ha,hRead⟩ := ih
    obtain ⟨hKey,hEntries⟩ := hRead n (right :: rest) (by omega) (.of_character hr (by decide))
    rw [List.cons_append,List.append_assoc,parsePrimary_bracket hl]
    exact parseArray_keyed (h.afterCharacter_none (by simp) (.inr rfl)) hKey ha hEntries hr
  | @group ts left right e hl _ hr ih =>
    intro fuel rest hf
    simp only [List.length_cons,List.length_append,List.length_nil] at hf
    obtain ⟨n,rfl⟩ : ∃ n, fuel = n + 2 := ⟨fuel - 2,by omega⟩
    have hEnds : Ends itemFollowers (right :: rest) := .of_character hr (by decide)
    have hItems := parseItems_one (ih n (right :: rest) (by omega) hEnds.expr) (hEnds ',' (by decide))
    rw [List.cons_append,List.append_assoc]
    exact parsePrimary_parenthesis hl hr hItems
  | @tuple ts us left comma right e es hl _ hc h hr ih ihs =>
    intro fuel rest hf
    simp only [List.length_cons,List.length_append,List.length_nil] at hf
    obtain ⟨n,rfl⟩ : ∃ n, fuel = n + 2 := ⟨fuel - 2,by omega⟩
    have hEnds : Ends itemFollowers (right :: rest) := .of_character hr (by decide)
    have hFirst := ih n (comma :: (us ++ right :: rest)) (by omega) (.of_character hc (by decide))
    have hItems := parseItems_more hFirst hc (ihs n (right :: rest) (by omega) hEnds)
    have htext : left :: (ts ++ comma :: (us ++ [right])) ++ rest =
        left :: (ts ++ comma :: (us ++ right :: rest)) := by simp
    have hGroup : groupOf (e :: es) = .tuple (e :: es) := by
      cases h with
      | item => rfl
      | items => rfl
    rw [htext,parsePrimary_parenthesis hl hr hItems,hGroup]

theorem DerivesStatement.reads {s : Statement} (h : DerivesStatement ts s) (stop : Nat)
    (hf : 8 * ts.length + 2 ≤ fuel) (rest : List Token) :
    parseStatement stop fuel (ts ++ rest) = .ok (s,rest) := by
  cases h with
  | namespaced hw hn hs =>
    simp only [parseStatement,List.cons_append,List.nil_append,hw,if_true,takeName_ok hn,ok_bind,
      takeCharacter_ok hs,pure_ok]
  | @yield ts word semicolon e hw h hs =>
    simp only [List.length_cons,List.length_append,List.length_nil] at hf
    have hk := isKeyword_kind hw
    have htext : word.text = "return" := by simpa [Token.isKeyword,hk] using hw
    have hn : word.isKeyword "namespace" = false := by simp [Token.isKeyword,htext]
    have hRead := h.reads stop fuel (semicolon :: rest) (by omega) (.of_character hs (by decide))
    rw [List.cons_append,List.append_assoc,List.singleton_append]
    simp only [parseStatement,hn,Bool.false_eq_true,if_false,hw,if_true,hRead,ok_bind,
      takeCharacter_ok hs,pure_ok]
  | @expr ts semicolon e h hs =>
    rw [List.length_append,List.length_singleton] at hf
    have hRead := h.reads stop fuel (semicolon :: rest) (by omega) (.of_character hs (by decide))
    rw [List.append_assoc,List.singleton_append]
    obtain hNone | ⟨t,us,rfl,hb⟩ := h.begins
    · cases hNone
    · rw [List.cons_append] at hRead ⊢
      simp only [parseStatement,hb.2.2.1,hb.2.2.2,Bool.false_eq_true,if_false,hRead,ok_bind,
        takeCharacter_ok hs,pure_ok]

theorem DerivesStatement.length_pos {s : Statement} (h : DerivesStatement ts s) :
    0 < ts.length := by
  cases h with
  | namespaced => exact Nat.succ_pos _
  | yield => exact Nat.succ_pos _
  | expr => rw [List.length_append,List.length_singleton]; exact Nat.succ_pos _

/-- The parser reads every unit of the grammar. -/
theorem DerivesUnit.reads {ss : List Statement} {each : Nat} (h : DerivesUnit ts ss) (stop : Nat)
    (hEach : 8 * ts.length + 2 ≤ each) (hf : ts.length ≤ fuel) :
    parseStatements stop each fuel ts = .ok ss := by
  induction h generalizing fuel with
  | nil => unfold parseStatements; rfl
  | @cons ts us s ss h _ ih =>
    have hpos := h.length_pos
    rw [List.length_append] at hEach hf
    obtain ⟨n,rfl⟩ : ∃ n, fuel = n + 1 := ⟨fuel - 1,by omega⟩
    have hFirst : 8 * ts.length + 2 ≤ each := by omega
    have hRead := h.reads stop hFirst us
    obtain ⟨t,vs,rfl⟩ : ∃ t vs, ts = t :: vs := List.exists_cons_of_length_pos hpos
    have hShort : us.length ≤ n := by omega
    have hRest := ih (by omega) hShort
    rw [List.cons_append] at hRead ⊢
    simp only [parseStatements,hRead,ok_bind,hRest,pure_ok]

end Wiring.Script
