import Mathlib
import Wiring.Proofs.Script.PrintedTokens

/-!
# Tokenizing loses nothing

Tokens lie one after another in their text, with only blanks and comments between them.
A text is laid out from its front: a gap, a token, and then the rest in the same way,
until the text ends or an error token takes up what is left.
-/
namespace Wiring.Script

section Gaps

/-- Blanks, and comments with the ends of their lines. At the end of a text the last
comment may run to the end. -/
inductive Gap (atEnd : Bool) : List Char → Prop where
  | nil : Gap atEnd []
  | blank {c : Char} {gap : List Char} : isBlank c = true → Gap atEnd gap → Gap atEnd (c :: gap)
  | comment {line gap : List Char} : '\n' ∉ line → Gap atEnd gap →
      Gap atEnd ('/' :: '/' :: (line ++ '\n' :: gap))
  | last {line : List Char} : atEnd = true → '\n' ∉ line → Gap atEnd ('/' :: '/' :: line)

mutual

/-- What is passed over at the front is a gap, which is the last one if nothing is left. -/
theorem splitBlank_gap : ∀ cs : List Char, Gap (splitBlank cs).2.isEmpty (splitBlank cs).1
  | [] => by
    unfold splitBlank
    exact .nil
  | c :: rest => by
    have hb := splitBlank_gap rest
    unfold splitBlank
    split
    next _ more heq =>
      rcases splitComment_gap more with ⟨line,gap,hline,hgap,hfront⟩ | ⟨hline,hleft⟩
      · simp only [hfront]
        exact .comment hline hgap
      · exact .last (by simp [hleft]) hline
    next _ d more _ heq =>
      obtain ⟨rfl,rfl⟩ : c = d ∧ rest = more := by simpa using heq
      by_cases h : isBlank c = true
      · simp only [h,if_true]
        exact .blank h hb
      · simp only [h,Bool.false_eq_true,if_false]
        exact .nil
    next heq => cases heq
termination_by cs => cs.length
decreasing_by
  · simp
  · simp_all only [List.cons.injEq,List.length_cons]
    omega

/-- A comment runs to the end of its line or to the end of the text. -/
theorem splitComment_gap : ∀ cs : List Char,
    (∃ line gap, '\n' ∉ line ∧ Gap (splitComment cs).2.isEmpty gap ∧
      (splitComment cs).1 = line ++ '\n' :: gap) ∨
    ('\n' ∉ (splitComment cs).1 ∧ (splitComment cs).2 = [])
  | [] => by
    unfold splitComment
    exact .inr ⟨List.not_mem_nil,rfl⟩
  | c :: rest => by
    have hb := splitBlank_gap rest
    have hc := splitComment_gap rest
    unfold splitComment
    by_cases h : c = '\n'
    · subst h
      simp only [if_true]
      exact .inl ⟨[],_,List.not_mem_nil,hb,rfl⟩
    · simp only [h,if_false]
      rcases hc with ⟨line,gap,hline,hgap,hfront⟩ | ⟨hline,hleft⟩
      · refine .inl ⟨c :: line,gap,?_,hgap,by rw [hfront,List.cons_append]⟩
        simpa [Ne.symm h] using hline
      · refine .inr ⟨?_,hleft⟩
        simpa [Ne.symm h] using hline
termination_by cs => cs.length

end

end Gaps

section Reading

/-- Characters that a number does not go on with. -/
def DigitsEnd (rest : List Char) : Prop :=
  ∀ c ∈ rest.head?, isDigit c = false ∧ c ≠ '.' ∧ c ≠ 'e' ∧ c ≠ 'E'

/-- What a token has to do with the characters that it covers and with those after it. -/
structure Token.Reads (t : Token) (covered after : List Char) : Prop where
  covers : covered ≠ []
  verbatim : t.kind ∈ [.identifier,.keyword,.number,.character,.operator] →
    t.text = String.ofList covered
  name_ends : t.isName = true → NameEnds after
  number_ends : t.kind = .number → DigitsEnd after
  keyword_iff : t.kind = .keyword ↔ String.ofList covered ∈ keywords
  keyword_text : t.kind ≠ .text → (t.kind = .keyword ↔ t.text ∈ keywords)
  quotes : t.kind = .text → ∃ inner, covered = '\'' :: (inner ++ ['\''])

theorem splitNumber_ends (cs : List Char) : DigitsEnd (splitNumber cs).2 := by
  fun_induction splitNumber cs with
  | case1 => exact fun _ hc => by cases hc
  | case5 => exact fun _ hc => by cases hc
  | case6 c rest hdigit hletter =>
    intro d hd
    obtain rfl : c = d := by simpa using hd
    simp_all
  | _ => simp_all

theorem splitQuoted_closes {cs quoted left : List Char} (h : splitQuoted cs = some (quoted,left)) :
    ∃ inner, quoted = inner ++ ['\''] := by
  fun_induction splitQuoted cs generalizing quoted left with
  | case1 => cases h
  | case2 rest =>
    obtain ⟨rfl,-⟩ : ['\''] = quoted ∧ rest = left := by simpa using h
    exact ⟨[],rfl⟩
  | case3 c rest ih =>
    obtain ⟨⟨q,l⟩,hq,heq⟩ := Option.map_eq_some_iff.mp h
    obtain ⟨rfl,-⟩ : '\\' :: c :: q = quoted ∧ l = left := by simpa using heq
    obtain ⟨inner,rfl⟩ := ih hq
    exact ⟨'\\' :: c :: inner,rfl⟩
  | case4 => cases h
  | case5 c rest _ _ _ ih =>
    obtain ⟨⟨q,l⟩,hq,heq⟩ := Option.map_eq_some_iff.mp h
    obtain ⟨rfl,-⟩ : c :: q = quoted ∧ l = left := by simpa using heq
    obtain ⟨inner,rfl⟩ := ih hq
    exact ⟨c :: inner,rfl⟩

theorem keywords_start : ∀ word ∈ keywords, ∀ c ∈ word.toList.head?, isIdentifierStart c = true := by
  simp [keywords]
  decide

theorem keywords_unspaced : ∀ word ∈ keywords, ' ' ∉ word.toList := by
  decide

theorem not_keyword_of_start {c : Char} {rest : List Char} (h : isIdentifierStart c = false) :
    String.ofList (c :: rest) ∉ keywords := by
  intro hmem
  have hc := keywords_start _ hmem c (by rw [String.toList_ofList]; rfl)
  rw [h] at hc
  cases hc

theorem not_keyword_of_space {message : String} (h : ' ' ∈ message.toList) : message ∉ keywords :=
  fun hmem => keywords_unspaced _ hmem h

/-- A symbol is a token whatever comes after it. -/
theorem reads_symbol {t : Token} {c : Char} {rest : List Char}
    (hk : t.kind = .character ∨ t.kind = .operator) (ht : t.text = String.ofList (c :: rest))
    (hc : isIdentifierStart c = false) (after : List Char) : t.Reads (c :: rest) after := by
  have hword : String.ofList (c :: rest) ∉ keywords := not_keyword_of_start hc
  have hplain : t.kind ≠ .identifier ∧ t.kind ≠ .keyword ∧ t.kind ≠ .number ∧ t.kind ≠ .text := by
    rcases hk with hk | hk <;> rw [hk] <;> decide
  obtain ⟨hi,hw,hn,hq⟩ := hplain
  exact {
    covers := List.cons_ne_nil _ _
    verbatim := fun _ => ht
    name_ends := fun h => by simp [Token.isName,hi,hw] at h
    number_ends := fun h => absurd h hn
    keyword_iff := iff_of_false hw hword
    keyword_text := fun _ => iff_of_false hw (ht ▸ hword)
    quotes := fun h => absurd h hq }

/-- An error is a token whatever comes after it. -/
theorem reads_error {t : Token} {c : Char} {rest : List Char} (hk : t.kind = .error)
    (ht : ' ' ∈ t.text.toList) (hc : isIdentifierStart c = false) (after : List Char) :
    t.Reads (c :: rest) after := by
  have hw : t.kind ≠ .keyword := by simp [hk]
  exact {
    covers := List.cons_ne_nil _ _
    verbatim := fun h => by simp [hk] at h
    name_ends := fun h => by simp [Token.isName,hk] at h
    number_ends := fun h => by simp [hk] at h
    keyword_iff := iff_of_false hw (not_keyword_of_start hc)
    keyword_text := fun _ => iff_of_false hw (not_keyword_of_space ht)
    quotes := fun h => by simp [hk] at h }

/-- A quoted text is a token whatever comes after it. -/
theorem reads_quoted {t : Token} (hk : t.kind = .text) (inner after : List Char) :
    t.Reads ('\'' :: (inner ++ ['\''])) after := by
  have hword : String.ofList ('\'' :: (inner ++ ['\''])) ∉ keywords := not_keyword_of_start rfl
  exact {
    covers := List.cons_ne_nil _ _
    verbatim := fun h => by simp [hk] at h
    name_ends := fun h => by simp [Token.isName,hk] at h
    number_ends := fun h => by simp [hk] at h
    keyword_iff := iff_of_false (by simp [hk]) hword
    keyword_text := fun h => absurd hk h
    quotes := fun _ => ⟨inner,rfl⟩ }

/-- A word is a token where it cannot go on. -/
theorem reads_word {t : Token} {c : Char} {rest after : List Char}
    (hk : t.kind = if String.ofList (c :: rest) ∈ keywords then .keyword else .identifier)
    (ht : t.text = String.ofList (c :: rest)) (hends : NameEnds after) :
    t.Reads (c :: rest) after := by
  have hiff : t.kind = .keyword ↔ String.ofList (c :: rest) ∈ keywords := by
    rw [hk]
    split <;> simp_all
  have hother : t.kind ≠ .number ∧ t.kind ≠ .text := by
    rw [hk]
    split <;> decide
  exact {
    covers := List.cons_ne_nil _ _
    verbatim := fun _ => ht
    name_ends := fun _ => hends
    number_ends := fun h => absurd h hother.1
    keyword_iff := hiff
    keyword_text := fun _ => ht ▸ hiff
    quotes := fun h => absurd h hother.2 }

theorem nameEnds_dropWhile (cs : List Char) : NameEnds (cs.dropWhile isIdentifierPart) := by
  intro c hc
  have hnot := List.head?_dropWhile_not isIdentifierPart cs
  rw [Option.mem_def.mp hc] at hnot
  simpa using hnot

/-- A number that stops within its exponent is an error, any other ends where its digits do. -/
theorem reads_number {number left : List Char} {c : Char} {rest : List Char}
    (hnumber : number = c :: rest) (hc : isIdentifierStart c = false) (hends : DigitsEnd left)
    (start stop : Nat) :
    Token.Reads ⟨(Lexeme.ofNumber number).kind,start,stop,(Lexeme.ofNumber number).text⟩
      (Lexeme.ofNumber number).covered left := by
  subst hnumber
  unfold Lexeme.ofNumber
  split
  next => exact reads_error rfl (by simp) hc left
  next =>
    have hword : String.ofList (c :: rest) ∉ keywords := not_keyword_of_start hc
    exact {
      covers := List.cons_ne_nil _ _
      verbatim := fun _ => rfl
      name_ends := fun h => by simp [Token.isName,Lexeme.verbatim] at h
      number_ends := fun _ => hends
      keyword_iff := iff_of_false (by simp [Lexeme.verbatim]) hword
      keyword_text := fun _ => iff_of_false (by simp [Lexeme.verbatim]) hword
      quotes := fun h => by simp [Lexeme.verbatim] at h }

/-- Every token is read off the characters that it covers. -/
theorem splitToken_reads {cs left : List Char} {lexeme : Lexeme}
    (h : splitToken cs = some (lexeme,left)) (start stop : Nat) :
    Token.Reads ⟨lexeme.kind,start,stop,lexeme.text⟩ lexeme.covered left := by
  cases cs with
  | nil => cases h
  | cons c rest =>
    simp only [splitToken] at h
    split at h
    next =>
      obtain ⟨rfl,rfl⟩ := Prod.mk.inj (Option.some.inj h)
      exact reads_word (by simp [Lexeme.ofName,Lexeme.verbatim]) rfl (nameEnds_dropWhile rest)
    next hname =>
    have hc : isIdentifierStart c = false := by
      simp only [Bool.or_eq_true,not_or,Bool.not_eq_true] at hname
      exact hname.1
    split at h
    next hdigit =>
      obtain ⟨rfl,rfl⟩ := Prod.mk.inj (Option.some.inj h)
      have hnumber : (splitNumber (c :: rest)).1 = c :: (splitNumber rest).1 := by
        rw [splitNumber_cons (by rw [hdigit]; rfl)]
      exact reads_number hnumber hc (splitNumber_ends _) start stop
    split at h
    next =>
      obtain ⟨rfl,rfl⟩ := Prod.mk.inj (Option.some.inj h)
      exact reads_symbol (.inl rfl) rfl hc _
    split at h
    next hquote =>
      obtain rfl : c = '\'' := by simpa using hquote
      split at h
      next quoted left' heq =>
        obtain ⟨rfl,rfl⟩ := Prod.mk.inj (Option.some.inj h)
        obtain ⟨inner,rfl⟩ := splitQuoted_closes heq
        exact reads_quoted rfl inner _
      next =>
        obtain ⟨rfl,rfl⟩ := Prod.mk.inj (Option.some.inj h)
        exact reads_error rfl (by simp) hc _
    split at h
    next =>
      obtain ⟨rfl,rfl⟩ := Prod.mk.inj (Option.some.inj h)
      exact reads_symbol (.inr rfl) rfl hc _
    split at h
    next =>
      split at h
      next =>
        obtain ⟨rfl,rfl⟩ := Prod.mk.inj (Option.some.inj h)
        exact reads_symbol (.inr rfl) rfl hc _
      next =>
        obtain ⟨rfl,rfl⟩ := Prod.mk.inj (Option.some.inj h)
        exact reads_symbol (.inl rfl) rfl hc _
    next =>
      obtain ⟨rfl,rfl⟩ := Prod.mk.inj (Option.some.inj h)
      exact reads_error rfl (by simp) hc _

end Reading

section Layout

/-- The characters of a text between two bytes, neither of them within a character, and
what comes after them. -/
def Span (cs : List Char) (start stop : Nat) (part after : List Char) : Prop :=
  ∃ before, cs = before ++ (part ++ after) ∧ start = byteLength before ∧
    stop = start + byteLength part

theorem byteLength_eq_utf8Len (cs : List Char) : byteLength cs = String.utf8Len cs := by
  induction cs with
  | nil => rfl
  | cons c cs ih =>
    rw [String.utf8Len_cons,← ih,Nat.add_comm]
    rfl

theorem byteLength_append (cs ds : List Char) :
    byteLength (cs ++ ds) = byteLength cs + byteLength ds := by
  simp only [byteLength_eq_utf8Len,String.utf8Len_append]

theorem byteLength_toList (text : String) : byteLength text.toList = text.utf8ByteSize := by
  rw [byteLength_eq_utf8Len,← String.utf8ByteSize_ofList,String.ofList_toList]

theorem byteLength_pos {cs : List Char} (h : cs ≠ []) : 0 < byteLength cs := by
  cases cs with
  | nil => exact absurd rfl h
  | cons c cs => exact Nat.add_pos_left (Char.utf8Size_pos c) _

theorem Span.intro (before part after : List Char) :
    Span (before ++ (part ++ after)) (byteLength before) (byteLength before + byteLength part)
      part after :=
  ⟨before,rfl,rfl,rfl⟩

/-- Two parts that lie side by side. -/
theorem Span.split {cs part more after : List Char} {start stop : Nat}
    (h : Span cs start stop (part ++ more) after) :
    Span cs start (start + byteLength part) part (more ++ after) ∧
      Span cs (start + byteLength part) stop more after := by
  obtain ⟨before,rfl,rfl,rfl⟩ := h
  refine ⟨⟨before,by simp only [List.append_assoc],rfl,rfl⟩,⟨before ++ part,?_,?_,?_⟩⟩
  · simp only [List.append_assoc]
  · rw [byteLength_append]
  · rw [byteLength_append,Nat.add_assoc]

theorem Span.bounds {cs part after : List Char} {start stop : Nat}
    (h : Span cs start stop part after) (hne : part ≠ []) : start < stop ∧ stop ≤ byteLength cs := by
  obtain ⟨before,rfl,rfl,rfl⟩ := h
  have hpos := byteLength_pos hne
  rw [byteLength_append,byteLength_append]
  omega

theorem Span.le {cs part after : List Char} {start stop : Nat} (h : Span cs start stop part after) :
    start ≤ stop := by
  obtain ⟨_,_,_,rfl⟩ := h
  exact Nat.le_add_right _ _

/-- How a text is taken up by its tokens from a byte on: a gap, a token and the rest in the
same way. -/
inductive Laid (cs : List Char) : Nat → List Token → Prop where
  | done {offset : Nat} {gap : List Char} : Span cs offset (byteLength cs) gap [] → Gap true gap →
      Laid cs offset []
  | error {offset : Nat} {gap covered after : List Char} {t : Token} :
      Span cs offset t.start gap (covered ++ after) → Gap false gap →
      Span cs t.start t.stop covered after → t.Reads covered after → t.kind = .error →
      Laid cs offset [t]
  | token {offset : Nat} {gap covered after : List Char} {t : Token} {tokens : List Token} :
      Span cs offset t.start gap (covered ++ after) → Gap false gap →
      Span cs t.start t.stop covered after → t.Reads covered after → t.kind ≠ .error →
      Laid cs t.stop tokens → Laid cs offset (t :: tokens)

theorem splitToken_none {cs : List Char} (h : splitToken cs = none) : cs = [] := by
  cases cs with
  | nil => rfl
  | cons c rest =>
    simp only [splitToken] at h
    repeat' split at h
    all_goals cases h

/-- The scanner takes up a whole text, from wherever it stands. -/
theorem tokensFrom_laid (fuel : Nat) (before cs : List Char) (hfuel : cs.length < fuel) :
    Laid (before ++ cs) (byteLength before) (tokensFrom fuel (byteLength before) cs) := by
  induction fuel generalizing before cs with
  | zero => exact absurd hfuel (Nat.not_lt_zero _)
  | succ fuel ih =>
    have hgap := splitBlank_gap cs
    have happend := splitBlank_append cs
    have hlength := splitBlank_length cs
    simp only [tokensFrom]
    cases h : splitToken (splitBlank cs).2 with
    | none =>
      have hleft := splitToken_none h
      rw [hleft,List.append_nil] at happend
      rw [hleft,happend] at hgap
      have hspan := Span.intro before cs []
      rw [List.append_nil,← byteLength_append] at hspan
      exact .done hspan hgap
    | some found =>
      obtain ⟨lexeme,left⟩ := found
      obtain ⟨hcovered,hne⟩ := splitToken_append h
      have hshort := splitToken_length h
      have hsome : (splitBlank cs).2.isEmpty = false := by
        rw [← hcovered]
        simp [hne]
      rw [hsome] at hgap
      generalize (splitBlank cs).1 = gap at hgap happend
      rw [← hcovered] at happend
      subst happend
      have hspan := (Span.intro before (gap ++ lexeme.covered) left).split
      rw [List.append_assoc,byteLength_append,← Nat.add_assoc] at hspan
      have hreads := splitToken_reads h (byteLength before + byteLength gap)
        (byteLength before + byteLength gap + byteLength lexeme.covered)
      by_cases hk : lexeme.kind = .error
      · simp only [hk,if_true]
        rw [hk] at hreads
        exact .error hspan.1 hgap hspan.2 hreads rfl
      · simp only [hk,if_false]
        have hrest := ih (before ++ (gap ++ lexeme.covered)) left (by omega)
        rw [List.append_assoc,List.append_assoc,byteLength_append,byteLength_append,
          ← Nat.add_assoc] at hrest
        exact .token hspan.1 hgap hspan.2 hreads hk hrest

variable {offset : Nat} {cs : List Char} {tokens : List Token}

theorem Laid.reads (h : Laid cs offset tokens) : ∀ t ∈ tokens,
    ∃ covered after, Span cs t.start t.stop covered after ∧ t.Reads covered after := by
  induction h with
  | done => exact fun t ht => by cases ht
  | error _ _ hspan hreads _ => exact List.forall_mem_singleton.mpr ⟨_,_,hspan,hreads⟩
  | token _ _ hspan hreads _ _ ih => exact List.forall_mem_cons.mpr ⟨⟨_,_,hspan,hreads⟩,ih⟩

theorem Laid.offset_le (h : Laid cs offset tokens) : ∀ t ∈ tokens, offset ≤ t.start := by
  induction h with
  | done => exact fun t ht => by cases ht
  | error hgap => exact List.forall_mem_singleton.mpr hgap.le
  | token hgap _ hspan _ _ _ ih =>
    exact List.forall_mem_cons.mpr
      ⟨hgap.le,fun u hu => hgap.le.trans (hspan.le.trans (ih u hu))⟩

theorem Laid.pairwise (h : Laid cs offset tokens) :
    tokens.Pairwise fun t u => t.stop ≤ u.start := by
  induction h with
  | done => exact .nil
  | error => exact List.pairwise_singleton _ _
  | token _ _ _ _ _ hrest ih => exact List.pairwise_cons.mpr ⟨hrest.offset_le,ih⟩

theorem Laid.error_last (h : Laid cs offset tokens) {front back : List Token} {t : Token}
    (ht : tokens = front ++ t :: back) (hk : t.kind = .error) : back = [] := by
  induction h generalizing front with
  | done => simp at ht
  | error =>
    cases front with
    | nil => exact (List.cons.inj ht).2.symm
    | cons u front => simp at ht
  | token _ _ _ _ hkind _ ih =>
    cases front with
    | nil =>
      obtain ⟨rfl,-⟩ := List.cons.inj ht
      exact absurd hk hkind
    | cons u front => exact ih (List.cons.inj ht).2

/-- Where the last of some tokens ends. -/
def endFrom (offset : Nat) : List Token → Nat
  | [] => offset
  | t :: tokens => endFrom t.stop tokens

theorem Laid.gap_before (h : Laid cs offset tokens) {front back : List Token} {t : Token}
    (ht : tokens = front ++ t :: back) :
    ∃ gap after, Span cs (endFrom offset front) t.start gap after ∧ Gap false gap := by
  induction h generalizing front with
  | done => simp at ht
  | error hspan hgap =>
    cases front with
    | nil =>
      obtain ⟨rfl,-⟩ := List.cons.inj ht
      exact ⟨_,_,hspan,hgap⟩
    | cons u front => simp at ht
  | token hspan hgap _ _ _ _ ih =>
    cases front with
    | nil =>
      obtain ⟨rfl,-⟩ := List.cons.inj ht
      exact ⟨_,_,hspan,hgap⟩
    | cons u front =>
      obtain ⟨rfl,hrest⟩ := List.cons.inj ht
      exact ih hrest

theorem Laid.gap_after (h : Laid cs offset tokens) (hk : ∀ t ∈ tokens, t.kind ≠ .error) :
    ∃ gap, Span cs (endFrom offset tokens) (byteLength cs) gap [] ∧ Gap true gap := by
  induction h with
  | done hspan hgap => exact ⟨_,hspan,hgap⟩
  | error _ _ _ _ hkind => exact absurd hkind (hk _ List.mem_cons_self)
  | token _ _ _ _ _ _ ih => exact ih (List.forall_mem_cons.mp hk).2

end Layout

section Lossless

/-- Some tokens make up a text, with nothing but blanks and comments between them. -/
structure Lossless (text : String) (tokens : List Token) : Prop where
  /-- A token covers characters of the text, at least one, and says what they are. -/
  reads : ∀ t ∈ tokens, ∃ covered after, Span text.toList t.start t.stop covered after ∧
    t.Reads covered after
  within : ∀ t ∈ tokens, t.start < t.stop ∧ t.stop ≤ text.utf8ByteSize
  increasing : tokens.Pairwise fun t u => t.stop ≤ u.start
  gap_before : ∀ front t back, tokens = front ++ t :: back →
    ∃ gap after, Span text.toList (endFrom 0 front) t.start gap after ∧ Gap false gap
  gap_after : (∀ t ∈ tokens, t.kind ≠ .error) →
    ∃ gap, Span text.toList (endFrom 0 tokens) text.utf8ByteSize gap [] ∧ Gap true gap
  error_last : ∀ front t back, tokens = front ++ t :: back → t.kind = .error → back = []

theorem tokenize_lossless (text : String) : Lossless text (tokenize text) := by
  have hlaid : Laid text.toList 0 (tokenize text) :=
    tokensFrom_laid _ [] text.toList (Nat.lt_succ_self _)
  exact {
    reads := hlaid.reads
    within := fun t ht => by
      obtain ⟨covered,after,hspan,hreads⟩ := hlaid.reads t ht
      rw [← byteLength_toList]
      exact hspan.bounds hreads.covers
    increasing := hlaid.pairwise
    gap_before := fun _ _ _ ht => hlaid.gap_before ht
    gap_after := fun hk => by
      rw [← byteLength_toList]
      exact hlaid.gap_after hk
    error_last := fun _ _ _ ht hk => hlaid.error_last ht hk }

end Lossless

end Wiring.Script
