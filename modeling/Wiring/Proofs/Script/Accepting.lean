import Mathlib
import Wiring.Proofs.Script.Parsing

/-!
# The parser accepts nothing but its grammar

Whatever the parser reads from a list of tokens, the grammar derives from the tokens that were
taken. Together with the converse this makes the parser a decision of the grammar, and since it
gives one result for each list, no list has two derivations with different results.
-/
namespace Wiring.Script

variable {stop fuel : Nat} {tokens rest : List Token}

section Taking

theorem takeToken_eq_ok {t : Token} :
    takeToken stop tokens = .ok (t,rest) ↔ tokens = t :: rest ∧ t.kind ≠ .error := by
  cases tokens with
  | nil => simp [takeToken]
  | cons u us =>
    rw [takeToken]
    constructor
    · intro h
      split at h
      next => cases h
      next hu =>
        obtain ⟨rfl,rfl⟩ := Prod.mk.inj (Except.ok.inj h)
        exact ⟨rfl,hu⟩
    · rintro ⟨he,ht⟩
      obtain ⟨rfl,rfl⟩ := List.cons.inj he
      exact if_neg ht

theorem of_takeCharacter {c : Char} (h : takeCharacter stop c tokens = .ok rest) :
    ∃ t, tokens = t :: rest ∧ t.isCharacter c = true := by
  replace h := bind_eq_ok.mp h
  obtain ⟨⟨t,us⟩,ht,h⟩ := h
  obtain ⟨rfl,_⟩ := takeToken_eq_ok.mp ht
  dsimp only at h
  split at h
  next hc =>
    obtain rfl := Except.ok.inj h
    exact ⟨t,rfl,hc⟩
  next => cases h

theorem of_takeName {name : String} (h : takeName stop tokens = .ok (name,rest)) :
    ∃ t, tokens = t :: rest ∧ t.isName = true ∧ name = t.text := by
  replace h := bind_eq_ok.mp h
  obtain ⟨⟨t,us⟩,ht,h⟩ := h
  obtain ⟨rfl,_⟩ := takeToken_eq_ok.mp ht
  dsimp only at h
  split at h
  next hn =>
    obtain ⟨rfl,rfl⟩ := Prod.mk.inj (Except.ok.inj h)
    exact ⟨t,rfl,hn,rfl⟩
  next => cases h

theorem of_afterCharacter {c : Char} (h : afterCharacter? c tokens = some rest) :
    ∃ t, tokens = t :: rest ∧ t.isCharacter c = true := by
  cases tokens with
  | nil => cases h
  | cons t us =>
    rw [afterCharacter?] at h
    split at h
    next hc =>
      obtain rfl := Option.some.inj h
      exact ⟨t,rfl,hc⟩
    next => cases h

theorem of_assignTo {offset : Nat} {value target e : Expr}
    (h : assignTo offset value target = .ok e) : Assigns target value e := by
  unfold assignTo at h
  split at h
  · exact Except.ok.inj h ▸ .var _ _
  · exact Except.ok.inj h ▸ .prop _ _ _
  · cases h

theorem of_arrayKey {offset : Nat} {keyExpr : Expr} {key : ArrayKey}
    (h : arrayKey offset keyExpr = .ok key) : KeyExpr keyExpr key := by
  unfold arrayKey at h
  split at h
  · exact Except.ok.inj h ▸ .int _
  · exact Except.ok.inj h ▸ .text _
  · cases h

theorem Derives.items_ne_nil {ts : List Token} {es : List Expr} (h : Derives ts (.items es)) :
    es ≠ [] := by
  cases h with
  | item => exact List.cons_ne_nil _ _
  | items => exact List.cons_ne_nil _ _

end Taking

/-- The tokens before the rest make up the phrase. -/
def Takes (tokens rest : List Token) (φ : Phrase) : Prop := ∃ ts, tokens = ts ++ rest ∧ Derives ts φ

/-- The tokens before the rest go on with those of what was read before, and both together make up
the phrase. -/
def TakesOn (before tokens rest : List Token) (φ : Phrase) : Prop :=
  ∃ ts, tokens = ts ++ rest ∧ Derives (before ++ ts) φ

mutual

theorem parseExpr_takes : ∀ (fuel : Nat) {tokens rest : List Token} {e : Expr},
    parseExpr stop fuel tokens = .ok (e,rest) → Takes tokens rest (.expr e)
  | 0, _, _, _, h => by
    rw [parseExpr] at h
    cases h
  | fuel + 1, _, _, _, h => by
    rw [parseExpr] at h
    replace h := bind_eq_ok.mp h
    obtain ⟨⟨target,us⟩,hTarget,h⟩ := h
    obtain ⟨ts,rfl,hd⟩ := parsePostfix_takes fuel hTarget
    dsimp only at h
    split at h
    next =>
      obtain ⟨rfl,rfl⟩ := Prod.mk.inj (Except.ok.inj h)
      exact ⟨ts,rfl,.ofChain hd⟩
    next hEqual =>
      obtain ⟨t,rfl,ht⟩ := of_afterCharacter hEqual
      replace h := bind_eq_ok.mp h
      obtain ⟨⟨value,vs⟩,hValue,h⟩ := h
      replace h := bind_eq_ok.mp h
      obtain ⟨e',ha,h⟩ := h
      obtain ⟨rfl,rfl⟩ := Prod.mk.inj (Except.ok.inj h)
      obtain ⟨us,rfl,hv⟩ := parseExpr_takes fuel hValue
      exact ⟨ts ++ t :: us,by simp,.assign hd ht hv (of_assignTo ha)⟩

theorem parsePostfix_takes : ∀ (fuel : Nat) {tokens rest : List Token} {e : Expr},
    parsePostfix stop fuel tokens = .ok (e,rest) → Takes tokens rest (.chain e)
  | 0, _, _, _, h => by
    rw [parsePostfix] at h
    cases h
  | fuel + 1, _, _, _, h => by
    rw [parsePostfix] at h
    replace h := bind_eq_ok.mp h
    obtain ⟨⟨first,us⟩,hFirst,h⟩ := h
    obtain ⟨ts,rfl,hd⟩ := parsePrimary_takes fuel hFirst
    obtain ⟨us,rfl,hd⟩ := parseSuffixes_takes fuel (.ofPrimary hd) h
    exact ⟨ts ++ us,by simp,hd⟩

/-- The properties and calls that follow go on with the chain that was read before them. -/
theorem parseSuffixes_takes : ∀ (fuel : Nat) {before tokens rest : List Token} {first e : Expr},
    Derives before (.chain first) → parseSuffixes stop fuel first tokens = .ok (e,rest) →
      TakesOn before tokens rest (.chain e)
  | 0, _, _, _, _, _, _, h => by
    rw [parseSuffixes] at h
    cases h
  | fuel + 1, before, _, _, _, _, hd, h => by
    rw [parseSuffixes] at h
    split at h
    next hPoint =>
      obtain ⟨point,rfl,hp⟩ := of_afterCharacter hPoint
      replace h := bind_eq_ok.mp h
      obtain ⟨⟨name,us⟩,hName,h⟩ := h
      obtain ⟨t,rfl,ht,rfl⟩ := of_takeName hName
      obtain ⟨ts,rfl,hd⟩ := parseSuffixes_takes fuel (.prop hd hp ht) h
      exact ⟨point :: t :: ts,rfl,by simpa using hd⟩
    next =>
      split at h
      next hLeft =>
        obtain ⟨left,rfl,hl⟩ := of_afterCharacter hLeft
        replace h := bind_eq_ok.mp h
        obtain ⟨⟨es,us⟩,hArguments,h⟩ := h
        obtain ⟨ts,right,rfl,hr,ha⟩ := parseArguments_takes fuel hArguments
        obtain ⟨us,rfl,hd⟩ := parseSuffixes_takes fuel (.call hd hl ha hr) h
        exact ⟨left :: (ts ++ right :: us),by simp,by simpa using hd⟩
      next =>
        obtain ⟨rfl,rfl⟩ := Prod.mk.inj (Except.ok.inj h)
        exact ⟨[],rfl,by rwa [List.append_nil]⟩

theorem parseArguments_takes : ∀ (fuel : Nat) {tokens rest : List Token} {es : List Expr},
    parseArguments stop fuel tokens = .ok (es,rest) → ∃ ts right, tokens = ts ++ right :: rest ∧
      right.isCharacter ')' = true ∧ Derives ts (.arguments es)
  | 0, _, _, _, h => by
    rw [parseArguments] at h
    cases h
  | fuel + 1, _, _, _, h => by
    rw [parseArguments] at h
    split at h
    next hRight =>
      obtain ⟨right,rfl,hr⟩ := of_afterCharacter hRight
      obtain ⟨rfl,rfl⟩ := Prod.mk.inj (Except.ok.inj h)
      exact ⟨[],right,rfl,hr,.noArguments⟩
    next =>
      replace h := bind_eq_ok.mp h
      obtain ⟨⟨items,us⟩,hItems,h⟩ := h
      replace h := bind_eq_ok.mp h
      obtain ⟨vs,hRight,h⟩ := h
      obtain ⟨rfl,rfl⟩ := Prod.mk.inj (Except.ok.inj h)
      obtain ⟨right,rfl,hr⟩ := of_takeCharacter hRight
      obtain ⟨ts,rfl,hd⟩ := parseItems_takes fuel hItems
      exact ⟨ts,right,rfl,hr,.ofItems hd⟩

theorem parseItems_takes : ∀ (fuel : Nat) {tokens rest : List Token} {es : List Expr},
    parseItems stop fuel tokens = .ok (es,rest) → Takes tokens rest (.items es)
  | 0, _, _, _, h => by
    rw [parseItems] at h
    cases h
  | fuel + 1, _, _, _, h => by
    rw [parseItems] at h
    replace h := bind_eq_ok.mp h
    obtain ⟨⟨e,us⟩,hFirst,h⟩ := h
    obtain ⟨ts,rfl,hd⟩ := parseExpr_takes fuel hFirst
    dsimp only at h
    split at h
    next =>
      obtain ⟨rfl,rfl⟩ := Prod.mk.inj (Except.ok.inj h)
      exact ⟨ts,rfl,.item hd⟩
    next hComma =>
      obtain ⟨comma,rfl,hc⟩ := of_afterCharacter hComma
      replace h := bind_eq_ok.mp h
      obtain ⟨⟨items,vs⟩,hItems,h⟩ := h
      obtain ⟨rfl,rfl⟩ := Prod.mk.inj (Except.ok.inj h)
      obtain ⟨us,rfl,hs⟩ := parseItems_takes fuel hItems
      exact ⟨ts ++ comma :: us,by simp,.items hd hc hs⟩

theorem parsePrimary_takes : ∀ (fuel : Nat) {tokens rest : List Token} {e : Expr},
    parsePrimary stop fuel tokens = .ok (e,rest) → Takes tokens rest (.primary e)
  | 0, _, _, _, h => by
    rw [parsePrimary] at h
    cases h
  | fuel + 1, _, _, _, h => by
    rw [parsePrimary] at h
    replace h := bind_eq_ok.mp h
    obtain ⟨⟨t,us⟩,ht,h⟩ := h
    obtain ⟨rfl,_⟩ := takeToken_eq_ok.mp ht
    dsimp only at h
    split at h
    next value hValue =>
      obtain ⟨rfl,rfl⟩ := Prod.mk.inj (Except.ok.inj h)
      obtain ⟨word,hw,hc⟩ := constant?_eq_some.mp hValue
      exact ⟨[t],rfl,.constant hw hc⟩
    next =>
    split at h
    next hk =>
      replace h := bind_eq_ok.mp h
      obtain ⟨e',hNumber,h⟩ := h
      obtain ⟨rfl,rfl⟩ := Prod.mk.inj (Except.ok.inj h)
      obtain ⟨value,rfl,hn⟩ := (numberLiteral_eq_ok hk).mp hNumber
      exact ⟨[t],rfl,.number hk hn⟩
    split at h
    next hMinus =>
      replace h := bind_eq_ok.mp h
      obtain ⟨⟨operand,vs⟩,ho,h⟩ := h
      obtain ⟨rfl,_⟩ := takeToken_eq_ok.mp ho
      dsimp only at h
      split at h
      next hInfinity =>
        obtain ⟨rfl,rfl⟩ := Prod.mk.inj (Except.ok.inj h)
        exact ⟨[t,operand],rfl,.negativeInfinity hMinus hInfinity⟩
      split at h
      next hk =>
        replace h := bind_eq_ok.mp h
        obtain ⟨e',hNumber,h⟩ := h
        obtain ⟨rfl,rfl⟩ := Prod.mk.inj (Except.ok.inj h)
        obtain ⟨value,rfl,hn⟩ := (numberLiteral_eq_ok hk).mp hNumber
        exact ⟨[t,operand],rfl,.negative hMinus hk hn⟩
      next => cases h
    split at h
    next hk =>
      obtain ⟨rfl,rfl⟩ := Prod.mk.inj (Except.ok.inj h)
      exact ⟨[t],rfl,.text hk⟩
    split at h
    next hWord =>
      replace h := bind_eq_ok.mp h
      obtain ⟨⟨name,vs⟩,hName,h⟩ := h
      obtain ⟨className,rfl,hn,rfl⟩ := of_takeName hName
      replace h := bind_eq_ok.mp h
      obtain ⟨ws,hLeft,h⟩ := h
      obtain ⟨left,rfl,hl⟩ := of_takeCharacter hLeft
      replace h := bind_eq_ok.mp h
      obtain ⟨⟨es,xs⟩,hArguments,h⟩ := h
      obtain ⟨rfl,rfl⟩ := Prod.mk.inj (Except.ok.inj h)
      obtain ⟨ts,right,rfl,hr,ha⟩ := parseArguments_takes fuel hArguments
      exact ⟨t :: className :: left :: (ts ++ [right]),by simp,.new hWord hn hl ha hr⟩
    split at h
    next hk =>
      obtain ⟨rfl,rfl⟩ := Prod.mk.inj (Except.ok.inj h)
      exact ⟨[t],rfl,.var hk⟩
    split at h
    next hLeft => exact parseArray_takes fuel hLeft h
    split at h
    next hLeft =>
      replace h := bind_eq_ok.mp h
      obtain ⟨⟨parts,vs⟩,hParts,h⟩ := h
      replace h := bind_eq_ok.mp h
      obtain ⟨ws,hRight,h⟩ := h
      obtain ⟨right,rfl,hr⟩ := of_takeCharacter hRight
      obtain ⟨ts,rfl,hd⟩ := parseItems_takes fuel hParts
      dsimp only at h
      cases hd with
      | item hd =>
        obtain ⟨rfl,rfl⟩ := Prod.mk.inj (Except.ok.inj h)
        exact ⟨t :: (ts ++ [right]),by simp,.group hLeft hd hr⟩
      | @items ts us comma _ es hd hc hs =>
        have hTwo : es ≠ [] := hs.items_ne_nil
        split at h
        next he => exact absurd (List.cons.inj he).2 hTwo
        obtain ⟨rfl,rfl⟩ := Prod.mk.inj (Except.ok.inj h)
        exact ⟨t :: (ts ++ comma :: (us ++ [right])),by simp,.tuple hLeft hd hc hs hr⟩
    next => cases h

/-- An array is read after its opening bracket. -/
theorem parseArray_takes : ∀ (fuel : Nat) {left : Token} {tokens rest : List Token} {e : Expr},
    left.isCharacter '[' = true → parseArray stop fuel tokens = .ok (e,rest) →
      Takes (left :: tokens) rest (.primary e)
  | 0, _, _, _, _, _, h => by
    rw [parseArray] at h
    cases h
  | fuel + 1, left, _, _, _, hl, h => by
    rw [parseArray] at h
    split at h
    next hRight =>
      obtain ⟨right,rfl,hr⟩ := of_afterCharacter hRight
      obtain ⟨rfl,rfl⟩ := Prod.mk.inj (Except.ok.inj h)
      exact ⟨[left,right],rfl,.noItems hl hr⟩
    next =>
    replace h := bind_eq_ok.mp h
    obtain ⟨⟨first,us⟩,hFirst,h⟩ := h
    obtain ⟨ts,rfl,hd⟩ := parseExpr_takes fuel hFirst
    dsimp only at h
    split_ifs at h with hKeyed
    · replace h := bind_eq_ok.mp h
      obtain ⟨⟨entries,vs⟩,hEntries,h⟩ := h
      replace h := bind_eq_ok.mp h
      obtain ⟨ws,hRight,h⟩ := h
      obtain ⟨rfl,rfl⟩ := Prod.mk.inj (Except.ok.inj h)
      obtain ⟨right,rfl,hr⟩ := of_takeCharacter hRight
      obtain ⟨us,rfl,hs⟩ := parseEntries_takes fuel hd hEntries
      exact ⟨left :: (ts ++ us ++ [right]),by simp,.keyed hl hs hr⟩
    split at h
    next =>
      replace h := bind_eq_ok.mp h
      obtain ⟨ws,hRight,h⟩ := h
      obtain ⟨rfl,rfl⟩ := Prod.mk.inj (Except.ok.inj h)
      obtain ⟨right,rfl,hr⟩ := of_takeCharacter hRight
      exact ⟨left :: (ts ++ [right]),by simp,.list hl (.item hd) hr⟩
    next hComma =>
      obtain ⟨comma,rfl,hc⟩ := of_afterCharacter hComma
      replace h := bind_eq_ok.mp h
      obtain ⟨⟨items,vs⟩,hItems,h⟩ := h
      replace h := bind_eq_ok.mp h
      obtain ⟨ws,hRight,h⟩ := h
      obtain ⟨rfl,rfl⟩ := Prod.mk.inj (Except.ok.inj h)
      obtain ⟨right,rfl,hr⟩ := of_takeCharacter hRight
      obtain ⟨us,rfl,hs⟩ := parseItems_takes fuel hItems
      exact ⟨left :: (ts ++ comma :: us ++ [right]),by simp,.list hl (.items hd hc hs) hr⟩

/-- Entries are read after the key of the first one. -/
theorem parseEntries_takes : ∀ (fuel : Nat) {before tokens rest : List Token} {keyExpr : Expr}
    {es : List (ArrayKey × Expr)}, Derives before (.expr keyExpr) →
      parseEntries stop fuel keyExpr tokens = .ok (es,rest) →
        TakesOn before tokens rest (.entries es)
  | 0, _, _, _, _, _, _, h => by
    rw [parseEntries] at h
    cases h
  | fuel + 1, before, _, _, _, _, hd, h => by
    rw [parseEntries] at h
    replace h := bind_eq_ok.mp h
    obtain ⟨⟨arrow,us⟩,hArrow,h⟩ := h
    obtain ⟨rfl,_⟩ := takeToken_eq_ok.mp hArrow
    dsimp only at h
    split at h
    next ha =>
      replace h := bind_eq_ok.mp h
      obtain ⟨key,hKey,h⟩ := h
      replace h := bind_eq_ok.mp h
      obtain ⟨⟨value,vs⟩,hValue,h⟩ := h
      obtain ⟨ts,rfl,hv⟩ := parseExpr_takes fuel hValue
      dsimp only at h
      split at h
      next =>
        obtain ⟨rfl,rfl⟩ := Prod.mk.inj (Except.ok.inj h)
        exact ⟨arrow :: ts,rfl,.entry hd ha (of_arrayKey hKey) hv⟩
      next hComma =>
        obtain ⟨comma,rfl,hc⟩ := of_afterCharacter hComma
        replace h := bind_eq_ok.mp h
        obtain ⟨⟨nextKey,ws⟩,hNext,h⟩ := h
        replace h := bind_eq_ok.mp h
        obtain ⟨⟨entries,xs⟩,hEntries,h⟩ := h
        obtain ⟨rfl,rfl⟩ := Prod.mk.inj (Except.ok.inj h)
        obtain ⟨ks,rfl,hk⟩ := parseExpr_takes fuel hNext
        obtain ⟨us,rfl,hs⟩ := parseEntries_takes fuel hk hEntries
        exact ⟨arrow :: (ts ++ comma :: (ks ++ us)),by simp,
          .entries hd ha (of_arrayKey hKey) hv hc hs⟩
    next => cases h

end

theorem parseStatement_takes {s : Statement} (h : parseStatement stop fuel tokens = .ok (s,rest)) :
    ∃ ts, tokens = ts ++ rest ∧ DerivesStatement ts s := by
  cases tokens with
  | nil => cases h
  | cons word us =>
    unfold parseStatement at h
    dsimp only at h
    split at h
    next hw =>
      replace h := bind_eq_ok.mp h
      obtain ⟨⟨name,vs⟩,hName,h⟩ := h
      replace h := bind_eq_ok.mp h
      obtain ⟨ws,hSemicolon,h⟩ := h
      obtain ⟨rfl,rfl⟩ := Prod.mk.inj (Except.ok.inj h)
      obtain ⟨t,rfl,ht,rfl⟩ := of_takeName hName
      obtain ⟨semicolon,rfl,hs⟩ := of_takeCharacter hSemicolon
      exact ⟨[word,t,semicolon],rfl,.namespaced hw ht hs⟩
    split at h
    next hw =>
      replace h := bind_eq_ok.mp h
      obtain ⟨⟨e,vs⟩,hExpr,h⟩ := h
      replace h := bind_eq_ok.mp h
      obtain ⟨ws,hSemicolon,h⟩ := h
      obtain ⟨rfl,rfl⟩ := Prod.mk.inj (Except.ok.inj h)
      obtain ⟨ts,rfl,hd⟩ := parseExpr_takes fuel hExpr
      obtain ⟨semicolon,rfl,hs⟩ := of_takeCharacter hSemicolon
      exact ⟨word :: (ts ++ [semicolon]),by simp,.yield hw hd hs⟩
    next =>
      replace h := bind_eq_ok.mp h
      obtain ⟨⟨e,vs⟩,hExpr,h⟩ := h
      replace h := bind_eq_ok.mp h
      obtain ⟨ws,hSemicolon,h⟩ := h
      obtain ⟨rfl,rfl⟩ := Prod.mk.inj (Except.ok.inj h)
      obtain ⟨ts,he,hd⟩ := parseExpr_takes fuel hExpr
      obtain ⟨semicolon,rfl,hs⟩ := of_takeCharacter hSemicolon
      exact ⟨ts ++ [semicolon],by simpa using he,.expr hd hs⟩

/-- What is read as a unit is derived as one from all tokens. -/
theorem parseStatements_takes {each : Nat} {ss : List Statement}
    (h : parseStatements stop each fuel tokens = .ok ss) : DerivesUnit tokens ss := by
  induction fuel generalizing tokens ss with
  | zero =>
    cases tokens with
    | nil =>
      obtain rfl := Except.ok.inj h
      exact .nil
    | cons t us => cases h
  | succ fuel ih =>
    cases tokens with
    | nil =>
      obtain rfl := Except.ok.inj h
      exact .nil
    | cons t us =>
      replace h := bind_eq_ok.mp h
      obtain ⟨⟨s,vs⟩,hFirst,h⟩ := h
      replace h := bind_eq_ok.mp h
      obtain ⟨more,hMore,h⟩ := h
      obtain rfl := Except.ok.inj h
      obtain ⟨ts,he,hd⟩ := parseStatement_takes hFirst
      rw [he]
      exact .cons hd (ih hMore)

/-- The tokens of a unit, read with steps enough. -/
theorem parseStatements_eq_ok (stop : Nat) {ss : List Statement} :
    parseStatements stop (fuelFor tokens) tokens.length tokens = .ok ss ↔ DerivesUnit tokens ss :=
  ⟨parseStatements_takes,fun h => h.reads stop (by unfold fuelFor; omega) (Nat.le_refl _)⟩

theorem parseUnit_eq_ok {file text : String} {ss : List Statement} :
    parseUnit file text = .ok ss ↔ DerivesUnit (tokenize text) ss := by
  rw [← parseStatements_eq_ok (byteLength text.toList)]
  unfold parseUnit
  dsimp only
  cases parseStatements (byteLength text.toList) (fuelFor (tokenize text)) (tokenize text).length
    (tokenize text) with
  | ok ss' => simp [Except.mapError]
  | error l => simp [Except.mapError]

theorem parseExpression_eq_ok {text : String} {e : Expr} :
    parseExpression text = .ok e ↔ Derives (tokenize text) (.expr e) := by
  have hread (h : Derives (tokenize text) (.expr e)) :
      parseExpr (byteLength text.toList) (fuelFor (tokenize text)) (tokenize text) = .ok (e,[]) := by
    have hRead := h.reads (byteLength text.toList) (fuelFor (tokenize text)) []
      (by unfold fuelFor; omega) (.nil _)
    rwa [List.append_nil] at hRead
  unfold parseExpression
  dsimp only
  constructor
  · intro h
    cases hExpr : parseExpr (byteLength text.toList) (fuelFor (tokenize text)) (tokenize text) with
    | error l =>
      rw [hExpr] at h
      cases h
    | ok r =>
      obtain ⟨e',rest⟩ := r
      rw [hExpr,ok_bind] at h
      cases rest with
      | cons t us => cases h
      | nil =>
        obtain rfl := Except.ok.inj h
        obtain ⟨ts,he,hd⟩ := parseExpr_takes _ hExpr
        rw [List.append_nil] at he
        rwa [he]
  · intro h
    rw [hread h]
    rfl

theorem DerivesUnit.unique {ss ss' : List Statement} (h : DerivesUnit tokens ss)
    (h' : DerivesUnit tokens ss') : ss = ss' :=
  Except.ok.inj (((parseStatements_eq_ok 0).mpr h).symm.trans ((parseStatements_eq_ok 0).mpr h'))

theorem Derives.expr_unique {e e' : Expr} (h : Derives tokens (.expr e))
    (h' : Derives tokens (.expr e')) : e = e' := by
  have hRead := h.reads 0 (fuelFor tokens) [] (by unfold fuelFor; omega) (.nil _)
  have hRead' := h'.reads 0 (fuelFor tokens) [] (by unfold fuelFor; omega) (.nil _)
  exact (Prod.mk.inj (Except.ok.inj (hRead.symm.trans hRead'))).1

/-- The parser accepts exactly its grammar, from tokens, as a unit and as one expression, and the
grammar gives one result for all tokens at most. -/
theorem parser_accepts_exactly_its_grammar :
    (∀ (stop : Nat) (tokens : List Token) (ss : List Statement),
      parseStatements stop (fuelFor tokens) tokens.length tokens = .ok ss ↔
        DerivesUnit tokens ss) ∧
    (∀ (file text : String) (ss : List Statement),
      parseUnit file text = .ok ss ↔ DerivesUnit (tokenize text) ss) ∧
    (∀ (text : String) (e : Expr),
      parseExpression text = .ok e ↔ Derives (tokenize text) (.expr e)) ∧
    (∀ (tokens : List Token) (ss ss' : List Statement),
      DerivesUnit tokens ss → DerivesUnit tokens ss' → ss = ss') ∧
    ∀ (tokens : List Token) (e e' : Expr),
      Derives tokens (.expr e) → Derives tokens (.expr e') → e = e' :=
  ⟨fun stop _ _ => parseStatements_eq_ok stop,fun _ _ _ => parseUnit_eq_ok,
    fun _ _ => parseExpression_eq_ok,fun _ _ _ => DerivesUnit.unique,
    fun _ _ _ => Derives.expr_unique⟩

/-- A list in a call is accepted and read in one way. With a comma after its last item it is not
accepted. -/
theorem parser_accepts_no_trailing_comma :
    DerivesUnit (tokenize "return f([1, -2]);")
      [.yield (.call (.var "f") [.list [.literal (.int 1),.literal (.int (-2))]])] ∧
    ¬DerivesUnit (tokenize "return f([1, -2]);") [.yield (.call (.var "f") [])] ∧
    ¬∃ e, Derives (tokenize "f([1, -2,])") (.expr e) := by
  obtain ⟨-,hUnit,hExpression,hUnique,-⟩ := parser_accepts_exactly_its_grammar
  have hRead := (hUnit "" "return f([1, -2]);"
    [.yield (.call (.var "f") [.list [.literal (.int 1),.literal (.int (-2))]])]).mp (by cbv)
  have hError : parseExpression "f([1, -2,])" =
      .error (.badSyntax "<expression>" 9 (.unexpectedToken "]")) := by cbv
  refine ⟨hRead,?_,?_⟩
  · intro h
    cases hUnique _ _ _ hRead h
  · rintro ⟨e,h⟩
    cases hError.symm.trans ((hExpression _ e).mpr h)

end Wiring.Script
