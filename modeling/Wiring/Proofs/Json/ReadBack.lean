import Mathlib
import Wiring.Proofs.Json.Numbers
import Wiring.Proofs.Json.Texts

/-!
# JSON texts are read back

A tree is legible to a depth if its integers and floating point numbers keep their value
in a text and its containers nest less deep than that. What is written for a legible tree,
compactly or on lines, is read back as the tree, whatever follows it.
-/
namespace Wiring.Json

inductive Legible : Nat → Json → Prop where
  | null (depth : Nat) : Legible depth .null
  | bool (depth : Nat) (b : Bool) : Legible depth (.bool b)
  | int {i : Int} (depth : Nat) (h : intFits i = true) : Legible depth (.int i)
  | float {x : Binary64} (depth : Nat) (h : FloatFits x) : Legible depth (.float x)
  | text (depth : Nat) (s : String) : Legible depth (.text s)
  | list {depth : Nat} {items : List Json} (h : ∀ item ∈ items, Legible (depth + 1) item) :
      Legible (depth + 2) (.list items)
  | record {depth : Nat} {fields : List (String × Json)}
      (h : ∀ field ∈ fields, Legible (depth + 1) field.2) : Legible (depth + 2) (.record fields)

section Blanks

def Blank (cs : List Char) : Prop := ∀ c ∈ cs, isBlank c = true

theorem blank_nil : Blank [] := fun c hc => by cases hc

theorem skipBlank_append {blanks cs : List Char} (h : Blank blanks) :
    skipBlank (blanks ++ cs) = skipBlank cs := by
  induction blanks with
  | nil => rfl
  | cons c blanks ih =>
    rw [List.cons_append,skipBlank,List.dropWhile_cons_of_pos (h c List.mem_cons_self)]
    exact ih fun d hd => h d (List.mem_cons_of_mem _ hd)

theorem skipBlank_cons {c : Char} (cs : List Char) (h : isBlank c = false) :
    skipBlank (c :: cs) = c :: cs := by
  rw [skipBlank,List.dropWhile_cons_of_neg (by simp [h])]

theorem blank_newline (level : Nat) : Blank (newline level) := by
  intro c hc
  rcases List.mem_cons.mp hc with rfl | hc
  · decide
  · rw [List.eq_of_mem_replicate hc]
    decide

theorem readValue_blank {blanks cs : List Char} (h : Blank blanks) (fuel depth : Nat) :
    readValue fuel depth (blanks ++ cs) = readValue fuel depth cs := by
  cases fuel with
  | zero => rw [readValue,readValue]
  | succ fuel => rw [readValue,readValue,skipBlank_append h]

end Blanks

section Layout

/-- The first character is neither blank nor the end of a container. -/
def Opens (cs : List Char) : Prop :=
  ∃ c rest, cs = c :: rest ∧ isBlank c = false ∧ c ≠ ']' ∧ c ≠ '}'

/-- The characters are read as a tree at some depth. -/
structure Reads (depth : Nat) (j : Json) (cs : List Char) : Prop where
  opens : Opens cs
  reads : ∀ fuel rest, 2 * cs.length < fuel → NumberStops rest →
    readValue fuel depth (cs ++ rest) = some (j,rest)

theorem numberStops_blank {blanks rest : List Char} (h : Blank blanks) (hr : NumberStops rest) :
    NumberStops (blanks ++ rest) := by
  cases blanks with
  | nil => exact hr
  | cons c blanks =>
    have hc : isBlank c = true := h c List.mem_cons_self
    refine numberStops_cons ?_
    simp only [isBlank,Bool.or_eq_true,beq_iff_eq] at hc
    rcases hc with ((rfl | rfl) | rfl) | rfl <;> decide

variable {depth : Nat} {blanks closing : List Char}

/-- Items with blanks around them, up to the closing bracket. -/
theorem readItems_layout (hb : Blank blanks) (hc : Blank closing) {items : List Json}
    {texts : List (List Char)} (hr : List.Forall₂ (Reads depth) items texts) (hne : items ≠ []) :
    ∀ (before : List Char), Blank before → ∀ (fuel : Nat) (rest : List Char),
      2 * (before ++ join (',' :: blanks) texts ++ closing).length + 2 ≤ fuel →
      readItems fuel depth (before ++ (join (',' :: blanks) texts ++ (closing ++ ']' :: rest))) =
        some (items,rest) := by
  induction hr with
  | nil => exact absurd rfl hne
  | @cons item text items texts hitem hr ih =>
    intro before hbefore fuel rest hfuel
    obtain ⟨fuel,rfl⟩ : ∃ n, fuel = n + 1 := ⟨fuel - 1,by omega⟩
    cases hr with
    | nil =>
      have hlen : 2 * text.length < fuel := by
        simp only [join,List.length_append] at hfuel
        omega
      have hstops : NumberStops (closing ++ ']' :: rest) :=
        numberStops_blank hc (numberStops_cons (by decide))
      rw [readItems,readValue_blank hbefore,join,hitem.reads fuel _ hlen hstops]
      simp only [Option.bind_eq_bind,Option.bind_some,skipBlank_append hc,
        skipBlank_cons rest (show isBlank ']' = false by decide)]
      rfl
    | @cons item' text' items texts hitem' hr =>
      have hlen : 2 * text.length < fuel := by
        simp only [join,List.length_append,List.length_cons] at hfuel
        omega
      have hnext := ih (by simp) blanks hb fuel rest (by
        simp only [join,List.length_append,List.length_cons] at hfuel ⊢
        omega)
      have hsplit : join (',' :: blanks) (text :: text' :: texts) ++ (closing ++ ']' :: rest) =
          text ++ (',' :: (blanks ++ (join (',' :: blanks) (text' :: texts) ++
            (closing ++ ']' :: rest)))) := by
        simp [join]
      rw [readItems,readValue_blank hbefore,hsplit,
        hitem.reads fuel _ hlen (numberStops_cons (by decide))]
      simp only [Option.bind_eq_bind,Option.bind_some,
        skipBlank_cons _ (show isBlank ',' = false by decide),hnext]
      rfl

/-- A field with blanks before its value. -/
def fieldChars (gap : List Char) (key : String) (text : List Char) : List Char :=
  textChars key ++ ':' :: (gap ++ text)

/-- The characters are read as a field whose value is read at some depth. -/
def ReadsField (depth : Nat) (gap : List Char) (field : String × Json) (cs : List Char) : Prop :=
  ∃ text, Reads depth field.2 text ∧ cs = fieldChars gap field.1 text

/-- A field is read up to what follows its value. -/
theorem readField_step {gap : List Char} (hg : Blank gap) {field : String × Json} {cs : List Char}
    (hf : ReadsField depth gap field cs) (fuel : Nat) {rest : List Char}
    (hfuel : 2 * cs.length < fuel) (hstops : NumberStops rest) :
    ∃ key tail, cs ++ rest = '"' :: key ∧ readText key = some (some field.1,':' :: tail) ∧
      readValue fuel depth tail = some (field.2,rest) := by
  obtain ⟨text,htext,rfl⟩ := hf
  have hlen : 2 * text.length < fuel := by
    simp only [fieldChars,List.length_append,List.length_cons] at hfuel
    omega
  refine ⟨_,gap ++ (text ++ rest),?_,readText_escaped field.1 _,?_⟩
  · simp [fieldChars,textChars]
  · rw [readValue_blank hg,htext.reads fuel _ hlen hstops]

/-- Fields with blanks around them, up to the closing brace. -/
theorem readFields_layout (hb : Blank blanks) (hc : Blank closing) {gap : List Char}
    (hg : Blank gap) {fields : List (String × Json)} {texts : List (List Char)}
    (hr : List.Forall₂ (ReadsField depth gap) fields texts) (hne : fields ≠ []) :
    ∀ (before : List Char), Blank before → ∀ (fuel : Nat) (rest : List Char),
      2 * (before ++ join (',' :: blanks) texts ++ closing).length + 2 ≤ fuel →
      readFields fuel depth (before ++ (join (',' :: blanks) texts ++ (closing ++ '}' :: rest))) =
        some (fields.map fun f => (some f.1,f.2),rest) := by
  induction hr with
  | nil => exact absurd rfl hne
  | @cons field text fields texts hfield hr ih =>
    intro before hbefore fuel rest hfuel
    obtain ⟨fuel,rfl⟩ : ∃ n, fuel = n + 1 := ⟨fuel - 1,by omega⟩
    cases hr with
    | nil =>
      have hlen : 2 * text.length < fuel := by
        simp only [join,List.length_append] at hfuel
        omega
      have hstops : NumberStops (closing ++ '}' :: rest) :=
        numberStops_blank hc (numberStops_cons (by decide))
      obtain ⟨key,tail,hcs,hkey,hvalue⟩ := readField_step hg hfield fuel hlen hstops
      rw [readFields,skipBlank_append hbefore,join,hcs,skipBlank_cons _ (by decide)]
      simp only [Option.bind_eq_bind,Option.bind_some,hkey,
        skipBlank_cons tail (show isBlank ':' = false by decide),hvalue,skipBlank_append hc,
        skipBlank_cons rest (show isBlank '}' = false by decide)]
      rfl
    | @cons field' text' fields texts hfield' hr =>
      have hlen : 2 * text.length < fuel := by
        simp only [join,List.length_append,List.length_cons] at hfuel
        omega
      have hnext := ih (by simp) blanks hb fuel rest (by
        simp only [join,List.length_append,List.length_cons] at hfuel ⊢
        omega)
      have hsplit : join (',' :: blanks) (text :: text' :: texts) ++ (closing ++ '}' :: rest) =
          text ++ (',' :: (blanks ++ (join (',' :: blanks) (text' :: texts) ++
            (closing ++ '}' :: rest)))) := by
        simp [join]
      obtain ⟨key,tail,hcs,hkey,hvalue⟩ :=
        readField_step hg hfield fuel hlen (numberStops_comma _)
      rw [readFields,skipBlank_append hbefore,hsplit,hcs,skipBlank_cons _ (by decide)]
      simp only [Option.bind_eq_bind,Option.bind_some,hkey,
        skipBlank_cons tail (show isBlank ':' = false by decide),hvalue,
        skipBlank_cons _ (show isBlank ',' = false by decide),hnext]
      rfl

theorem join_opens (separator : List Char) {texts : List (List Char)} (h : ∀ t ∈ texts, Opens t)
    (hne : texts ≠ []) (more : List Char) : Opens (join separator texts ++ more) := by
  have happend {cs : List Char} (hc : Opens cs) (more : List Char) : Opens (cs ++ more) := by
    obtain ⟨c,rest,rfl,hc⟩ := hc
    exact ⟨c,rest ++ more,rfl,hc⟩
  cases texts with
  | nil => exact absurd rfl hne
  | cons t texts =>
    have ht := h t List.mem_cons_self
    cases texts with
    | nil => exact happend ht more
    | cons u texts =>
      rw [join,List.append_assoc,List.append_assoc]
      · exact happend ht _
      · simp

theorem opens_of_forall₂ {α : Type} {R : α → List Char → Prop} (hR : ∀ a cs, R a cs → Opens cs)
    {items : List α} {texts : List (List Char)} (hr : List.Forall₂ R items texts) :
    ∀ t ∈ texts, Opens t := by
  induction hr with
  | nil => exact fun t ht => by cases ht
  | cons h _ ih => exact List.forall_mem_cons.mpr ⟨hR _ _ h,ih⟩

theorem reads_list (hb : Blank blanks) (hc : Blank closing) {items : List Json}
    {texts : List (List Char)} (hr : List.Forall₂ (Reads (depth + 1)) items texts)
    (hne : items ≠ []) :
    Reads (depth + 2) (.list items)
      ('[' :: (blanks ++ (join (',' :: blanks) texts ++ (closing ++ [']'])))) where
  opens := ⟨'[',_,rfl,by decide,by decide,by decide⟩
  reads fuel rest hfuel hstops := by
    obtain ⟨fuel,rfl⟩ : ∃ n, fuel = n + 1 := ⟨fuel - 1,by omega⟩
    have htexts : texts ≠ [] := by
      rintro rfl
      cases hr
      exact hne rfl
    obtain ⟨c,more,hopen,hblank,hclose,_⟩ :=
      join_opens (',' :: blanks) (opens_of_forall₂ (fun _ _ h => h.opens) hr) htexts
        (closing ++ ']' :: rest)
    have hitems := readItems_layout hb hc hr hne [] blank_nil fuel rest (by
      simp only [List.length_append,List.length_cons,List.length_nil] at hfuel ⊢
      omega)
    rw [List.nil_append,hopen] at hitems
    have hsplit : '[' :: (blanks ++ (join (',' :: blanks) texts ++ (closing ++ [']']))) ++ rest =
        '[' :: (blanks ++ c :: more) := by
      rw [← hopen]
      simp
    rw [hsplit,readValue,skipBlank_cons _ (by decide)]
    simp only [skipBlank_append hb,skipBlank_cons more hblank]
    split
    next h => exact absurd (List.cons.inj h).1 hclose
    · rw [show depth + 2 - 1 = depth + 1 from rfl,hitems]
      simp

theorem mapM_keys (fields : List (String × Json)) :
    (fields.map fun f => (some f.1,f.2)).mapM (fun f => f.1.map fun key => (key,f.2)) =
      some fields := by
  induction fields with
  | nil => rfl
  | cons f fields ih => simp [ih]

theorem ofFields_keys (fields : List (String × Json)) :
    ofFields (fields.map fun f => (some f.1,f.2)) = .record fields := by
  rw [ofFields,mapM_keys]

theorem reads_record (hb : Blank blanks) (hc : Blank closing) {gap : List Char} (hg : Blank gap)
    {fields : List (String × Json)} {texts : List (List Char)}
    (hr : List.Forall₂ (ReadsField (depth + 1) gap) fields texts) (hne : fields ≠ []) :
    Reads (depth + 2) (.record fields)
      ('{' :: (blanks ++ (join (',' :: blanks) texts ++ (closing ++ ['}'])))) where
  opens := ⟨'{',_,rfl,by decide,by decide,by decide⟩
  reads fuel rest hfuel hstops := by
    obtain ⟨fuel,rfl⟩ : ∃ n, fuel = n + 1 := ⟨fuel - 1,by omega⟩
    have htexts : texts ≠ [] := by
      rintro rfl
      cases hr
      exact hne rfl
    have hfields : ∀ f cs, ReadsField (depth + 1) gap f cs → Opens cs := by
      rintro f _ ⟨text,_,rfl⟩
      exact ⟨'"',_,rfl,by decide,by decide,by decide⟩
    obtain ⟨c,more,hopen,hblank,_,hclose⟩ :=
      join_opens (',' :: blanks) (opens_of_forall₂ hfields hr) htexts
        (closing ++ '}' :: rest)
    have hread := readFields_layout hb hc hg hr hne [] blank_nil fuel rest (by
      simp only [List.length_append,List.length_cons,List.length_nil] at hfuel ⊢
      omega)
    rw [List.nil_append,hopen] at hread
    have hsplit : '{' :: (blanks ++ (join (',' :: blanks) texts ++ (closing ++ ['}']))) ++ rest =
        '{' :: (blanks ++ c :: more) := by
      rw [← hopen]
      simp
    rw [hsplit,readValue,skipBlank_cons _ (by decide)]
    simp only [skipBlank_append hb,skipBlank_cons more hblank]
    split
    next h => exact absurd (List.cons.inj h).1 hclose
    · rw [show depth + 2 - 1 = depth + 1 from rfl,hread]
      simp [ofFields_keys]

end Layout

section Scalars

theorem reads_null (depth : Nat) : Reads depth .null ['n','u','l','l'] where
  opens := ⟨'n',_,rfl,by decide,by decide,by decide⟩
  reads fuel rest hfuel _ := by
    obtain ⟨fuel,rfl⟩ : ∃ n, fuel = n + 1 := ⟨fuel - 1,by omega⟩
    rw [List.cons_append,readValue,skipBlank_cons _ (by decide)]
    rfl

theorem reads_bool (depth : Nat) (b : Bool) : Reads depth (.bool b) (compactChars (.bool b)) := by
  cases b with
  | false =>
    refine ⟨⟨'f',_,rfl,by decide,by decide,by decide⟩,fun fuel rest hfuel _ => ?_⟩
    obtain ⟨fuel,rfl⟩ : ∃ n, fuel = n + 1 := ⟨fuel - 1,by omega⟩
    show readValue (fuel + 1) depth ('f' :: ('a' :: 'l' :: 's' :: 'e' :: rest)) = _
    rw [readValue,skipBlank_cons _ (by decide)]
    rfl
  | true =>
    refine ⟨⟨'t',_,rfl,by decide,by decide,by decide⟩,fun fuel rest hfuel _ => ?_⟩
    obtain ⟨fuel,rfl⟩ : ∃ n, fuel = n + 1 := ⟨fuel - 1,by omega⟩
    show readValue (fuel + 1) depth ('t' :: ('r' :: 'u' :: 'e' :: rest)) = _
    rw [readValue,skipBlank_cons _ (by decide)]
    rfl

theorem reads_text (depth : Nat) (s : String) : Reads depth (.text s) (textChars s) where
  opens := ⟨'"',_,rfl,by decide,by decide,by decide⟩
  reads fuel rest hfuel _ := by
    obtain ⟨fuel,rfl⟩ : ∃ n, fuel = n + 1 := ⟨fuel - 1,by omega⟩
    have hsplit : textChars s ++ rest = '"' :: (s.toList.flatMap escapeChar ++ '"' :: rest) := by
      simp [textChars]
    rw [hsplit,readValue,skipBlank_cons _ (by decide)]
    simp [readText_escaped]

theorem readNumber_head {cs left : List Char} {j : Json} (h : readNumber cs = some (j,left)) :
    ∃ c rest, cs = c :: rest ∧ (c.isDigit = true ∨ c = '-') := by
  cases cs with
  | nil => cases h
  | cons c rest =>
    refine ⟨c,rest,rfl,?_⟩
    by_cases hminus : c = '-'
    · exact .inr hminus
    refine .inl ?_
    by_cases hdigit : c.isDigit = true
    · exact hdigit
    · simp [readNumber,hminus,hdigit] at h

theorem reads_number {j : Json} {cs : List Char} (h : readNumber cs = some (j,[])) (depth : Nat) :
    Reads depth j cs := by
  obtain ⟨c,more,rfl,hc⟩ := readNumber_head h
  have hne : ∀ d : Char, d.isDigit = false → d ≠ '-' → c ≠ d := by
    rintro d hd hminus rfl
    rcases hc with hc | hc
    · rw [hd] at hc
      cases hc
    · exact hminus hc
  have hblank : isBlank c = false := by
    simp [isBlank,hne ' ' (by decide) (by decide),hne '\n' (by decide) (by decide),
      hne '\t' (by decide) (by decide),hne '\r' (by decide) (by decide)]
  refine ⟨⟨c,more,rfl,hblank,hne ']' (by decide) (by decide),hne '}' (by decide) (by decide)⟩,?_⟩
  intro fuel rest hfuel hstops
  obtain ⟨fuel,rfl⟩ : ∃ n, fuel = n + 1 := ⟨fuel - 1,by omega⟩
  rw [List.cons_append,readValue,skipBlank_cons _ hblank]
  split
  next hd => exact absurd (List.cons.inj hd).1 (hne 'n' (by decide) (by decide))
  next hd => exact absurd (List.cons.inj hd).1 (hne 't' (by decide) (by decide))
  next hd => exact absurd (List.cons.inj hd).1 (hne 'f' (by decide) (by decide))
  next hd => exact absurd (List.cons.inj hd).1 (hne '"' (by decide) (by decide))
  next hd => exact absurd (List.cons.inj hd).1 (hne '[' (by decide) (by decide))
  next hd => exact absurd (List.cons.inj hd).1 (hne '\x7b' (by decide) (by decide))
  · rw [← List.cons_append,readNumber_append h hstops,List.nil_append]

theorem reads_int {i : Int} (h : intFits i = true) (depth : Nat) :
    Reads depth (.int i) (compactChars (.int i)) := by
  have hread := readNumber_int h numberStops_nil
  rw [List.append_nil] at hread
  exact reads_number hread depth

end Scalars

section Trees

variable {depth : Nat} {j : Json}

theorem compactItems_eq (items : List Json) : compactItems items = items.map compactChars := by
  induction items with
  | nil => rfl
  | cons item rest ih => rw [compactItems,ih,List.map_cons]

theorem compactFields_eq (fields : List (String × Json)) :
    compactFields fields = fields.map fun f => fieldChars [] f.1 (compactChars f.2) := by
  induction fields with
  | nil => rfl
  | cons f rest ih => rw [compactFields,ih,List.map_cons]; rfl

theorem prettyItems_eq (level : Nat) (items : List Json) :
    prettyItems level items = items.map (prettyChars level) := by
  induction items with
  | nil => rfl
  | cons item rest ih => rw [prettyItems,ih,List.map_cons]

theorem prettyFields_eq (level : Nat) (fields : List (String × Json)) :
    prettyFields level fields = fields.map fun f => fieldChars [' '] f.1 (prettyChars level f.2) := by
  induction fields with
  | nil => rfl
  | cons f rest ih => rw [prettyFields,ih,List.map_cons]; rfl

/-- An empty list or record, whatever the depth. -/
theorem reads_empty (depth : Nat) :
    Reads (depth + 2) (.list []) ['[',']'] ∧ Reads (depth + 2) (.record []) ['\x7b','\x7d'] := by
  constructor
  · refine ⟨⟨'[',_,rfl,by decide,by decide,by decide⟩,fun fuel rest hfuel _ => ?_⟩
    obtain ⟨fuel,rfl⟩ : ∃ n, fuel = n + 1 := ⟨fuel - 1,by omega⟩
    show readValue (fuel + 1) (depth + 2) ('[' :: (']' :: rest)) = _
    rw [readValue,skipBlank_cons _ (by decide)]
    simp [skipBlank_cons rest (show isBlank ']' = false by decide)]
  · refine ⟨⟨'{',_,rfl,by decide,by decide,by decide⟩,fun fuel rest hfuel _ => ?_⟩
    obtain ⟨fuel,rfl⟩ : ∃ n, fuel = n + 1 := ⟨fuel - 1,by omega⟩
    show readValue (fuel + 1) (depth + 2) ('{' :: ('}' :: rest)) = _
    rw [readValue,skipBlank_cons _ (by decide)]
    simp [skipBlank_cons rest (show isBlank '}' = false by decide),ofFields]

/-- What is written without blanks is read back. -/
theorem reads_compact (h : Legible depth j) : Reads depth j j.compactChars := by
  induction h with
  | null depth => exact reads_null depth
  | bool depth b => exact reads_bool depth b
  | int depth h => exact reads_int h depth
  | float depth h => exact reads_number h depth
  | text depth s => exact reads_text depth s
  | @list depth items h ih =>
    by_cases hne : items = []
    · subst hne
      exact (reads_empty depth).1
    · have hr : List.Forall₂ (Reads (depth + 1)) items (compactItems items) := by
        rw [compactItems_eq,List.forall₂_map_right_iff,List.forall₂_same]
        exact ih
      rw [compactChars]
      exact reads_list blank_nil blank_nil hr hne
  | @record depth fields h ih =>
    by_cases hne : fields = []
    · subst hne
      exact (reads_empty depth).2
    · have hr : List.Forall₂ (ReadsField (depth + 1) []) fields (compactFields fields) := by
        rw [compactFields_eq,List.forall₂_map_right_iff,List.forall₂_same]
        exact fun f hf => ⟨_,ih f hf,rfl⟩
      rw [compactChars]
      exact reads_record blank_nil blank_nil blank_nil hr hne

/-- What is written on lines is read back. -/
theorem reads_pretty (h : Legible depth j) : ∀ level, Reads depth j (j.prettyChars level) := by
  induction h with
  | null depth => exact fun _ => reads_null depth
  | bool depth b => exact fun _ => by rw [prettyChars]; exact reads_bool depth b
  | int depth h => exact fun _ => by rw [prettyChars]; exact reads_int h depth
  | float depth h => exact fun _ => reads_number h depth
  | text depth s => exact fun _ => reads_text depth s
  | @list depth items h ih =>
    intro level
    by_cases hne : items = []
    · subst hne
      exact (reads_empty depth).1
    · have hr : List.Forall₂ (Reads (depth + 1)) items (prettyItems (level + 1) items) := by
        rw [prettyItems_eq,List.forall₂_map_right_iff,List.forall₂_same]
        exact fun item hitem => ih item hitem (level + 1)
      rw [prettyChars,bracket,if_neg (by simp [prettyItems_eq,hne])]
      have hread := reads_list (blank_newline (level + 1)) (blank_newline level) hr hne
      simpa using hread
  | @record depth fields h ih =>
    intro level
    by_cases hne : fields = []
    · subst hne
      exact (reads_empty depth).2
    · have hr : List.Forall₂ (ReadsField (depth + 1) [' ']) fields
          (prettyFields (level + 1) fields) := by
        rw [prettyFields_eq,List.forall₂_map_right_iff,List.forall₂_same]
        exact fun f hf => ⟨_,ih f hf (level + 1),rfl⟩
      rw [prettyChars,bracket,if_neg (by simp [prettyFields_eq,hne])]
      have hread := reads_record (blank_newline (level + 1)) (blank_newline level)
        (by simp [Blank,isBlank]) hr hne
      simpa using hread

theorem read_of_reads {cs : List Char} (h : Reads depthLimit j cs) :
    read? (String.ofList cs) = some j := by
  have hread := h.reads (2 * cs.length + 2) [] (by omega) numberStops_nil
  unfold read?
  rw [List.append_nil] at hread
  rw [String.toList_ofList]
  simp only [hread,Option.bind_eq_bind,Option.bind_some]
  rfl

theorem read_compact (h : Legible depthLimit j) : read? j.compact = some j :=
  read_of_reads (reads_compact h)

theorem read_pretty (h : Legible depthLimit j) : read? j.pretty = some j :=
  read_of_reads (reads_pretty h 0)

end Trees
end Wiring.Json
