import Mathlib
import Wiring.Proofs.Script.Accepting
import Wiring.Proofs.Script.Tokenizing

/-!
# Where faults lie

The parser always comes to an end: on every round through the grammar a token is taken, so the
steps do not run out. It gives a tree or a fault, and a fault lies at the start of one of the
tokens or at the end of the text. The tokens of a phrase are no error tokens, so a text whose
last token is one has no tree.
-/
namespace Wiring.Script

variable {α β : Type} {stop : Nat} {tokens rest : List Token}

/-- The fault is found at one of the tokens or where the text stops, and there were steps left. -/
structure Located.Within (stop : Nat) (tokens : List Token) (l : Located) : Prop where
  placed : l.offset = stop ∨ ∃ t ∈ tokens, l.offset = t.start
  genuine : l.fault ≠ .exhausted

/-- If reading the tokens fails, then within them. -/
def FailsWithin (stop : Nat) (tokens : List Token) (r : Reading α) : Prop :=
  ∀ l, r = .error l → l.Within stop tokens

namespace FailsWithin

theorem ok (a : α) : FailsWithin stop tokens (.ok a : Reading α) := nofun

theorem at_token {t : Token} {fault : SyntaxFault} (ht : t ∈ tokens) (hf : fault ≠ .exhausted) :
    FailsWithin stop tokens (.error ⟨t.start,fault⟩ : Reading α) := by
  rintro _ ⟨⟩
  exact ⟨.inr ⟨t,ht,rfl⟩,hf⟩

theorem mono {r : Reading α} (h : FailsWithin stop rest r) (hsub : rest ⊆ tokens) :
    FailsWithin stop tokens r := by
  intro l hl
  refine ⟨(h l hl).placed.imp_right ?_,(h l hl).genuine⟩
  rintro ⟨t,ht,hoffset⟩
  exact ⟨t,hsub ht,hoffset⟩

theorem bind {r : Reading α} {f : α → Reading β} (h : FailsWithin stop tokens r)
    (hf : ∀ a, r = .ok a → FailsWithin stop tokens (f a)) : FailsWithin stop tokens (r >>= f) := by
  cases r with
  | ok a => exact hf a rfl
  | error l =>
    rintro _ ⟨⟩
    exact h l rfl

/-- What comes after a reader that fails within the tokens only has an answer to give. -/
theorem map {r : Reading α} (h : FailsWithin stop tokens r) (f : α → β) :
    FailsWithin stop tokens (r >>= fun a => pure (f a)) := h.bind fun _ _ => .ok _

end FailsWithin

section Tokens

variable {c : Char}

theorem takeToken_fails : FailsWithin stop tokens (takeToken stop tokens) := by
  cases tokens with
  | nil =>
    rintro _ ⟨⟩
    exact ⟨.inl rfl,SyntaxFault.noConfusion⟩
  | cons t rest =>
    rw [takeToken]
    split
    · exact .at_token List.mem_cons_self SyntaxFault.noConfusion
    · exact .ok _

theorem takeCharacter_fails : FailsWithin stop tokens (takeCharacter stop c tokens) := by
  refine takeToken_fails.bind fun ⟨t,rest⟩ ht => ?_
  obtain ⟨rfl,_⟩ := takeToken_eq_ok.mp ht
  dsimp only
  split
  · exact .ok _
  · exact .at_token List.mem_cons_self nofun

theorem takeName_fails : FailsWithin stop tokens (takeName stop tokens) := by
  refine takeToken_fails.bind fun ⟨t,rest⟩ ht => ?_
  obtain ⟨rfl,_⟩ := takeToken_eq_ok.mp ht
  dsimp only
  split
  · exact .ok _
  · exact .at_token List.mem_cons_self nofun

theorem numberLiteral_fails {t : Token} {negative : Bool} (ht : t ∈ tokens) :
    FailsWithin stop tokens (numberLiteral t negative) := by
  unfold numberLiteral
  dsimp only
  split
  · split
    · exact .ok _
    · exact .at_token ht nofun
  · split
    · exact .ok _
    · exact .at_token ht nofun

theorem arrayKey_fails {t : Token} (ht : t ∈ tokens) (e : Expr) :
    FailsWithin stop tokens (arrayKey t.start e) := by
  unfold arrayKey
  split
  · exact .ok _
  · exact .ok _
  · exact .at_token ht nofun

/-- An assignment is refused where its target begins. -/
theorem assignTo_fails (value target : Expr) :
    FailsWithin stop tokens (assignTo (offsetAt stop tokens) value target) := by
  unfold assignTo
  split
  · exact .ok _
  · exact .ok _
  · cases tokens with
    | nil =>
      rintro _ ⟨⟩
      exact ⟨.inl rfl,nofun⟩
    | cons t rest => exact .at_token List.mem_cons_self nofun

end Tokens

/-- What is left after a phrase is part of the tokens, and less than all of them. -/
theorem Takes.left {φ : Phrase} (h : Takes tokens rest φ) (hne : φ ≠ .arguments []) :
    rest ⊆ tokens ∧ rest.length < tokens.length := by
  obtain ⟨ts,rfl,hd⟩ := h
  have hpos := hd.length_pos hne
  refine ⟨List.subset_append_right _ _,?_⟩
  rw [List.length_append]
  omega

mutual

theorem parseExpr_fails : ∀ (fuel : Nat) {tokens : List Token}, 8 * tokens.length + 3 ≤ fuel →
    FailsWithin stop tokens (parseExpr stop fuel tokens)
  | 0, _, hf => by omega
  | fuel + 1, tokens, hf => by
    rw [parseExpr]
    refine (parsePostfix_fails fuel (by omega)).bind fun ⟨target,us⟩ hTarget => ?_
    obtain ⟨hsub,hlt⟩ := Takes.left (parsePostfix_takes fuel hTarget) nofun
    dsimp only
    split
    next => exact .ok _
    next vs hEqual =>
      obtain ⟨t,rfl,_⟩ := of_afterCharacter hEqual
      rw [List.length_cons] at hlt
      refine ((parseExpr_fails fuel (by omega)).mono
        (List.Subset.trans (List.subset_cons_self _ _) hsub)).bind fun ⟨value,ws⟩ _ => ?_
      exact (assignTo_fails value target).map _

theorem parsePostfix_fails : ∀ (fuel : Nat) {tokens : List Token}, 8 * tokens.length + 2 ≤ fuel →
    FailsWithin stop tokens (parsePostfix stop fuel tokens)
  | 0, _, hf => by omega
  | fuel + 1, tokens, hf => by
    rw [parsePostfix]
    refine (parsePrimary_fails fuel (by omega)).bind fun ⟨e,us⟩ hPrimary => ?_
    obtain ⟨hsub,hlt⟩ := Takes.left (parsePrimary_takes fuel hPrimary) nofun
    exact (parseSuffixes_fails fuel e (by omega)).mono hsub

theorem parseSuffixes_fails : ∀ (fuel : Nat) (e : Expr) {tokens : List Token},
    8 * tokens.length + 1 ≤ fuel → FailsWithin stop tokens (parseSuffixes stop fuel e tokens)
  | 0, _, _, hf => by omega
  | fuel + 1, e, tokens, hf => by
    rw [parseSuffixes]
    split
    next us hPoint =>
      obtain ⟨point,rfl,_⟩ := of_afterCharacter hPoint
      refine (takeName_fails.mono (List.subset_cons_self _ _)).bind fun ⟨name,vs⟩ hName => ?_
      obtain ⟨t,rfl,_⟩ := of_takeName hName
      rw [List.length_cons,List.length_cons] at hf
      refine (parseSuffixes_fails fuel _ (by omega)).mono ?_
      exact List.subset_cons_of_subset _ (List.subset_cons_self _ _)
    next =>
      split
      next us hLeft =>
        obtain ⟨left,rfl,_⟩ := of_afterCharacter hLeft
        rw [List.length_cons] at hf
        refine ((parseArguments_fails fuel (by omega)).mono (List.subset_cons_self _ _)).bind
          fun ⟨es,vs⟩ hArguments => ?_
        obtain ⟨ts,right,rfl,_⟩ := parseArguments_takes fuel hArguments
        rw [List.length_append,List.length_cons] at hf
        refine (parseSuffixes_fails fuel _ (by omega)).mono (List.subset_cons_of_subset _ ?_)
        exact List.subset_append_of_subset_right ts (List.subset_cons_self _ _)
      next => exact .ok _

theorem parseArguments_fails : ∀ (fuel : Nat) {tokens : List Token},
    8 * tokens.length + 5 ≤ fuel → FailsWithin stop tokens (parseArguments stop fuel tokens)
  | 0, _, hf => by omega
  | fuel + 1, tokens, hf => by
    rw [parseArguments]
    split
    next => exact .ok _
    next =>
      refine (parseItems_fails fuel (by omega)).bind fun ⟨es,us⟩ hItems => ?_
      obtain ⟨hsub,_⟩ := Takes.left (parseItems_takes fuel hItems) nofun
      exact (takeCharacter_fails.mono hsub).map _

theorem parseItems_fails : ∀ (fuel : Nat) {tokens : List Token}, 8 * tokens.length + 4 ≤ fuel →
    FailsWithin stop tokens (parseItems stop fuel tokens)
  | 0, _, hf => by omega
  | fuel + 1, tokens, hf => by
    rw [parseItems]
    refine (parseExpr_fails fuel (by omega)).bind fun ⟨e,us⟩ hFirst => ?_
    obtain ⟨hsub,hlt⟩ := Takes.left (parseExpr_takes fuel hFirst) nofun
    dsimp only
    split
    next => exact .ok _
    next vs hComma =>
      obtain ⟨comma,rfl,_⟩ := of_afterCharacter hComma
      rw [List.length_cons] at hlt
      exact ((parseItems_fails fuel (by omega)).mono
        (List.Subset.trans (List.subset_cons_self _ _) hsub)).map _

theorem parsePrimary_fails : ∀ (fuel : Nat) {tokens : List Token}, 8 * tokens.length + 1 ≤ fuel →
    FailsWithin stop tokens (parsePrimary stop fuel tokens)
  | 0, _, hf => by omega
  | fuel + 1, tokens, hf => by
    rw [parsePrimary]
    refine takeToken_fails.bind fun ⟨t,us⟩ ht => ?_
    obtain ⟨rfl,_⟩ := takeToken_eq_ok.mp ht
    rw [List.length_cons] at hf
    have hsub : us ⊆ t :: us := List.subset_cons_self _ _
    dsimp only
    split
    next => exact .ok _
    split
    next => exact (numberLiteral_fails List.mem_cons_self).map _
    split
    next =>
      refine (takeToken_fails.mono hsub).bind fun ⟨operand,vs⟩ ho => ?_
      obtain ⟨rfl,_⟩ := takeToken_eq_ok.mp ho
      have hmem : operand ∈ t :: operand :: vs := by simp
      dsimp only
      split
      next => exact .ok _
      split
      next => exact (numberLiteral_fails hmem).map _
      next => exact .at_token hmem nofun
    split
    next => exact .ok _
    split
    next =>
      refine (takeName_fails.mono hsub).bind fun ⟨name,vs⟩ hName => ?_
      obtain ⟨className,rfl,_⟩ := of_takeName hName
      have hvs : vs ⊆ t :: className :: vs := List.subset_cons_of_subset _ (List.subset_cons_self _ _)
      refine (takeCharacter_fails.mono hvs).bind fun ws hLeft => ?_
      obtain ⟨left,rfl,_⟩ := of_takeCharacter hLeft
      rw [List.length_cons,List.length_cons] at hf
      exact ((parseArguments_fails fuel (by omega)).mono
        (List.Subset.trans (List.subset_cons_self _ _) hvs)).map _
    split
    next => exact .ok _
    split
    next => exact (parseArray_fails fuel (by omega)).mono hsub
    split
    next =>
      refine ((parseItems_fails fuel (by omega)).mono hsub).bind fun ⟨parts,vs⟩ hParts => ?_
      obtain ⟨hvs,_⟩ := Takes.left (parseItems_takes fuel hParts) nofun
      refine (takeCharacter_fails.mono (List.Subset.trans hvs hsub)).bind fun ws _ => ?_
      dsimp only
      split
      next => exact .ok _
      next => exact .ok _
    next => exact .at_token List.mem_cons_self nofun

theorem parseArray_fails : ∀ (fuel : Nat) {tokens : List Token}, 8 * tokens.length + 4 ≤ fuel →
    FailsWithin stop tokens (parseArray stop fuel tokens)
  | 0, _, hf => by omega
  | fuel + 1, tokens, hf => by
    rw [parseArray]
    split
    next => exact .ok _
    next =>
    refine (parseExpr_fails fuel (by omega)).bind fun ⟨first,us⟩ hFirst => ?_
    have hTakes := parseExpr_takes fuel hFirst
    obtain ⟨hsub,hlt⟩ := hTakes.left nofun
    dsimp only
    split_ifs
    · refine ((parseEntries_fails fuel first (by omega)).mono hsub).bind
        fun ⟨entries,vs⟩ hEntries => ?_
      obtain ⟨ts,_,hd⟩ := hTakes
      obtain ⟨ws,rfl,_⟩ := parseEntries_takes fuel hd hEntries
      have hvs : vs ⊆ tokens := List.Subset.trans (List.subset_append_right _ _) hsub
      exact (takeCharacter_fails.mono hvs).map _
    split
    next => exact (takeCharacter_fails.mono hsub).map _
    next vs hComma =>
      obtain ⟨comma,rfl,_⟩ := of_afterCharacter hComma
      rw [List.length_cons] at hlt
      have hvs : vs ⊆ tokens := List.Subset.trans (List.subset_cons_self _ _) hsub
      refine ((parseItems_fails fuel (by omega)).mono hvs).bind fun ⟨items,ws⟩ hItems => ?_
      obtain ⟨hws,_⟩ := Takes.left (parseItems_takes fuel hItems) nofun
      exact (takeCharacter_fails.mono (List.Subset.trans hws hvs)).map _

theorem parseEntries_fails : ∀ (fuel : Nat) (keyExpr : Expr) {tokens : List Token},
    8 * tokens.length + 1 ≤ fuel → FailsWithin stop tokens (parseEntries stop fuel keyExpr tokens)
  | 0, _, _, hf => by omega
  | fuel + 1, keyExpr, tokens, hf => by
    rw [parseEntries]
    refine takeToken_fails.bind fun ⟨arrow,us⟩ hArrow => ?_
    obtain ⟨rfl,_⟩ := takeToken_eq_ok.mp hArrow
    rw [List.length_cons] at hf
    have hus : us ⊆ arrow :: us := List.subset_cons_self _ _
    dsimp only
    split
    next =>
      refine (arrayKey_fails List.mem_cons_self keyExpr).bind fun key _ => ?_
      refine ((parseExpr_fails fuel (by omega)).mono hus).bind fun ⟨value,vs⟩ hValue => ?_
      obtain ⟨hsub,hlt⟩ := Takes.left (parseExpr_takes fuel hValue) nofun
      dsimp only
      split
      next => exact .ok _
      next ws hComma =>
        obtain ⟨comma,rfl,_⟩ := of_afterCharacter hComma
        rw [List.length_cons] at hlt
        have hws : ws ⊆ arrow :: us :=
          List.Subset.trans (List.subset_cons_self _ _) (List.Subset.trans hsub hus)
        refine ((parseExpr_fails fuel (by omega)).mono hws).bind fun ⟨nextKey,xs⟩ hNext => ?_
        obtain ⟨hxs,hless⟩ := Takes.left (parseExpr_takes fuel hNext) nofun
        exact ((parseEntries_fails fuel nextKey (by omega)).mono
          (List.Subset.trans hxs hws)).map _
    next => exact .at_token List.mem_cons_self nofun

end

theorem parseStatement_fails {fuel : Nat} (hf : 8 * tokens.length + 3 ≤ fuel) :
    FailsWithin stop tokens (parseStatement stop fuel tokens) := by
  cases tokens with
  | nil =>
    rintro _ ⟨⟩
    exact ⟨.inl rfl,nofun⟩
  | cons word us =>
    have hus : us ⊆ word :: us := List.subset_cons_self _ _
    have hlength := hf
    rw [List.length_cons] at hlength
    unfold parseStatement
    dsimp only
    split
    next =>
      refine (takeName_fails.mono hus).bind fun ⟨name,vs⟩ hName => ?_
      obtain ⟨t,rfl,_⟩ := of_takeName hName
      exact (takeCharacter_fails.mono (by simp)).map _
    split
    next =>
      refine ((parseExpr_fails fuel (by omega)).mono hus).bind fun ⟨e,vs⟩ hExpr => ?_
      obtain ⟨hvs,_⟩ := Takes.left (parseExpr_takes fuel hExpr) nofun
      exact (takeCharacter_fails.mono (List.Subset.trans hvs hus)).map _
    next =>
      refine (parseExpr_fails fuel hf).bind fun ⟨e,vs⟩ hExpr => ?_
      obtain ⟨hvs,_⟩ := Takes.left (parseExpr_takes fuel hExpr) nofun
      exact (takeCharacter_fails.mono hvs).map _

theorem parseStatements_fails {each : Nat} (fuel : Nat) (hEach : 8 * tokens.length + 3 ≤ each)
    (hf : tokens.length ≤ fuel) :
    FailsWithin stop tokens (parseStatements stop each fuel tokens) := by
  induction fuel generalizing tokens with
  | zero =>
    obtain rfl := List.eq_nil_of_length_eq_zero (Nat.le_zero.mp hf)
    exact .ok _
  | succ fuel ih =>
    cases tokens with
    | nil => exact .ok _
    | cons t us =>
      refine (parseStatement_fails hEach).bind fun ⟨s,vs⟩ hFirst => ?_
      obtain ⟨ts,he,hd⟩ := parseStatement_takes hFirst
      have hpos := hd.length_pos
      have hlength : ts.length + vs.length = us.length + 1 := by
        rw [← List.length_append,← he,List.length_cons]
      rw [List.length_cons] at hEach hf
      have hvs : vs ⊆ t :: us := he ▸ List.subset_append_right ts vs
      exact ((ih (by omega) (by omega)).mono hvs).map _

section Errors

variable {ts us : List Token} {t : Token}

/-- None of the tokens is an error. -/
def Clean (ts : List Token) : Prop := ∀ t ∈ ts, t.kind ≠ .error

@[simp] theorem clean_nil : Clean [] := nofun

@[simp] theorem clean_cons : Clean (t :: ts) ↔ t.kind ≠ .error ∧ Clean ts := List.forall_mem_cons

@[simp] theorem clean_append : Clean (ts ++ us) ↔ Clean ts ∧ Clean us := List.forall_mem_append

/-- A phrase is made up of characters, operators, words, numbers and texts. -/
theorem Derives.clean {φ : Phrase} (h : Derives ts φ) : Clean ts := by
  induction h with
  | noArguments => exact clean_nil
  | ofChain _ ih | ofPrimary _ ih | ofItems _ ih | item _ ih => exact ih
  | assign _ ht _ _ ih ihv => simp [ih,ihv,Token.not_error_of_isCharacter ht]
  | prop _ hp hn ih =>
    simp [ih,Token.not_error_of_isCharacter hp,Token.not_error_of_isName hn]
  | call _ hl _ hr ih iha =>
    simp [ih,iha,Token.not_error_of_isCharacter hl,Token.not_error_of_isCharacter hr]
  | items _ hc _ ih ihs => simp [ih,ihs,Token.not_error_of_isCharacter hc]
  | entry _ ha _ _ ihk ih => simp [ihk,ih,Token.not_error_of_isOperator ha]
  | entries _ ha _ _ hc _ ihk ih ihs =>
    simp [ihk,ih,ihs,Token.not_error_of_isOperator ha,Token.not_error_of_isCharacter hc]
  | constant hw => simp [Token.not_error_of_isKeyword hw]
  | number hk | text hk | var hk => simp [hk]
  | negative hm hk => simp [hk,Token.not_error_of_isOperator hm]
  | negativeInfinity hm h =>
    simp [Token.not_error_of_isOperator hm,Token.not_error_of_isKeyword h]
  | new hw hn hl _ hr ih =>
    simp [ih,Token.not_error_of_isKeyword hw,Token.not_error_of_isName hn,
      Token.not_error_of_isCharacter hl,Token.not_error_of_isCharacter hr]
  | noItems hl hr =>
    simp [Token.not_error_of_isCharacter hl,Token.not_error_of_isCharacter hr]
  | list hl _ hr ih | keyed hl _ hr ih | group hl _ hr ih =>
    simp [ih,Token.not_error_of_isCharacter hl,Token.not_error_of_isCharacter hr]
  | tuple hl _ hc _ hr ih ihs =>
    simp [ih,ihs,Token.not_error_of_isCharacter hl,Token.not_error_of_isCharacter hc,
      Token.not_error_of_isCharacter hr]

theorem DerivesStatement.clean {s : Statement} (h : DerivesStatement ts s) : Clean ts := by
  cases h with
  | namespaced hw hn hs =>
    simp [Token.not_error_of_isKeyword hw,Token.not_error_of_isName hn,
      Token.not_error_of_isCharacter hs]
  | yield hw h hs =>
    simp [h.clean,Token.not_error_of_isKeyword hw,Token.not_error_of_isCharacter hs]
  | expr h hs => simp [h.clean,Token.not_error_of_isCharacter hs]

theorem DerivesUnit.clean {ss : List Statement} (h : DerivesUnit ts ss) : Clean ts := by
  induction h with
  | nil => exact clean_nil
  | cons h _ ih => exact clean_append.mpr ⟨h.clean,ih⟩

end Errors

section Texts

/-- Where a fault in a text can lie: where one of its tokens starts, or at its end. -/
def FaultPlace (text : String) (offset : Nat) : Prop :=
  offset = text.utf8ByteSize ∨ ∃ t ∈ tokenize text, offset = t.start

/-- A reader of the tokens of a text gives an answer, or a failure in the file that is placed
in the text. -/
theorem mapError_placed {text : String} {r : Reading α}
    (h : FailsWithin (byteLength text.toList) (tokenize text) r) (file : String) :
    (∃ a, r.mapError (failIn file) = .ok a) ∨ ∃ offset fault,
      r.mapError (failIn file) = .error (.badSyntax file offset fault) ∧
        fault ≠ .exhausted ∧ FaultPlace text offset := by
  cases r with
  | ok a => exact .inl ⟨a,rfl⟩
  | error l =>
    have hl := h l rfl
    refine .inr ⟨l.offset,l.fault,rfl,hl.genuine,?_⟩
    rw [FaultPlace,← byteLength_toList]
    exact hl.placed

theorem parseUnit_placed (file text : String) :
    (∃ ss, parseUnit file text = .ok ss) ∨ ∃ offset fault,
      parseUnit file text = .error (.badSyntax file offset fault) ∧
        fault ≠ .exhausted ∧ FaultPlace text offset :=
  mapError_placed (parseStatements_fails _ (by unfold fuelFor; omega) (Nat.le_refl _)) file

theorem parseExpression_placed (text : String) :
    (∃ e, parseExpression text = .ok e) ∨ ∃ offset fault,
      parseExpression text = .error (.badSyntax expressionFile offset fault) ∧
        fault ≠ .exhausted ∧ FaultPlace text offset := by
  refine mapError_placed ?_ expressionFile
  refine (parseExpr_fails _ (by unfold fuelFor; omega)).bind fun ⟨e,rest⟩ hExpr => ?_
  obtain ⟨hsub,_⟩ := Takes.left (parseExpr_takes _ hExpr) nofun
  cases rest with
  | nil => exact .ok _
  | cons t us => exact .at_token (hsub List.mem_cons_self) nofun

/-- The parser comes to an end with every text, as a unit of any file and as one expression: it
gives a tree, or a fault that names the file and lies where a token starts or where the text
ends. Its steps do not run out. A text whose last token is an error has no tree. -/
theorem syntax_faults_are_placed (file text : String) :
    ((∃ ss, parseUnit file text = .ok ss) ∨ ∃ offset fault,
      parseUnit file text = .error (.badSyntax file offset fault) ∧
        fault ≠ .exhausted ∧ FaultPlace text offset) ∧
    ((∃ e, parseExpression text = .ok e) ∨ ∃ offset fault,
      parseExpression text = .error (.badSyntax "<expression>" offset fault) ∧
        fault ≠ .exhausted ∧ FaultPlace text offset) ∧
    ∀ t, (tokenize text).getLast? = some t → t.kind = .error →
      (∀ ss, parseUnit file text ≠ .ok ss) ∧ ∀ e, parseExpression text ≠ .ok e := by
  refine ⟨parseUnit_placed file text,parseExpression_placed text,fun t hlast hkind => ?_⟩
  have hmem : t ∈ tokenize text := List.mem_of_getLast? hlast
  exact ⟨fun ss h => (parseUnit_eq_ok.mp h).clean t hmem hkind,
    fun e h => (parseExpression_eq_ok.mp h).clean t hmem hkind⟩

/-- A unit that lacks its semicolon fails at its end, and a quote that is left open is the last
token of its text. -/
theorem syntax_faults_are_placed_sample :
    parseUnit "x.di" "return (1, false)" = .error (.badSyntax "x.di" 17 .unexpectedEnd) ∧
      FaultPlace "return (1, false)" 17 ∧ ∀ ss, parseUnit "x.di" "return 'é;" ≠ .ok ss := by
  have hrun : parseUnit "x.di" "return (1, false)" =
      .error (.badSyntax "x.di" 17 .unexpectedEnd) := by cbv
  have hlast : (tokenize "return 'é;").getLast? = some ⟨.error,7,11,"Unterminated quote"⟩ := by cbv
  obtain ⟨hplaced,-,-⟩ := syntax_faults_are_placed "x.di" "return (1, false)"
  obtain ⟨-,-,hopen⟩ := syntax_faults_are_placed "x.di" "return 'é;"
  refine ⟨hrun,?_,(hopen _ hlast rfl).1⟩
  rcases hplaced with ⟨ss,h⟩ | ⟨offset,fault,h,-,hplace⟩
  · cases hrun.symm.trans h
  · cases hrun.symm.trans h
    exact hplace

end Texts

end Wiring.Script
