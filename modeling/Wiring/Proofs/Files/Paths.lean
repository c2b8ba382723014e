import Mathlib
import Wiring.Files

/-!
# Paths of texts

A text is its names with slashes between them. Joining an ordinary name to the text of a
directory leads to that name in the directory, and the text of the directory around it
leads back to the same directory, however its own text is written.
-/
namespace Wiring.Path

section Split

theorem split_ne_nil (cs : List Char) : split cs ≠ [] := by
  cases cs with
  | nil => simp [split]
  | cons c rest =>
    unfold split
    split
    · simp
    · split <;> simp

theorem split_cons_of_ne {c : Char} (hc : c ≠ '/') (cs : List Char) :
    ∃ part parts, split cs = part :: parts ∧ split (c :: cs) = (c :: part) :: parts := by
  obtain ⟨part,parts,h⟩ := List.exists_cons_of_ne_nil (split_ne_nil cs)
  exact ⟨part,parts,h,by rw [split,if_neg hc,h]⟩

theorem split_append_slash (xs ys : List Char) : split (xs ++ '/' :: ys) = split xs ++ split ys := by
  induction xs with
  | nil => simp [split]
  | cons c xs ih =>
    by_cases hc : c = '/'
    · subst hc
      simp [split,ih]
    · obtain ⟨part,parts,h,hcons⟩ := split_cons_of_ne hc xs
      obtain ⟨part',parts',h',hcons'⟩ := split_cons_of_ne hc (xs ++ '/' :: ys)
      rw [ih,h,List.cons_append] at h'
      obtain ⟨rfl,rfl⟩ := List.cons.inj h'
      rw [List.cons_append,hcons',hcons,List.cons_append]

theorem split_of_no_slash {cs : List Char} (h : '/' ∉ cs) : split cs = [cs] := by
  induction cs with
  | nil => rfl
  | cons c cs ih =>
    have hc : c ≠ '/' := fun hc => h (hc ▸ List.mem_cons_self)
    rw [split,if_neg hc,ih fun hm => h (List.mem_cons_of_mem _ hm)]

theorem no_slash_of_mem_split {cs part : List Char} (h : part ∈ split cs) : '/' ∉ part := by
  induction cs generalizing part with
  | nil =>
    rw [split,List.mem_singleton] at h
    simp [h]
  | cons c cs ih =>
    by_cases hc : c = '/'
    · subst hc
      simp only [split,if_true,List.mem_cons] at h
      rcases h with rfl | h
      · simp
      · exact ih h
    · obtain ⟨head,parts,hsplit,hcons⟩ := split_cons_of_ne hc cs
      rw [hcons,List.mem_cons] at h
      rcases h with rfl | h
      · intro hm
        rcases List.mem_cons.mp hm with hm | hm
        · exact hc hm.symm
        · exact ih (hsplit ▸ List.mem_cons_self) hm
      · exact ih (hsplit ▸ List.mem_cons_of_mem _ h)

theorem split_append_of_no_slash (xs : List Char) {ys : List Char} (h : '/' ∉ ys) :
    ∃ parts last, split xs = parts ++ [last] ∧ split (xs ++ ys) = parts ++ [last ++ ys] := by
  induction xs with
  | nil => exact ⟨[],[],rfl,split_of_no_slash h⟩
  | cons c xs ih =>
    obtain ⟨parts,last,hsplit,happend⟩ := ih
    by_cases hc : c = '/'
    · subst hc
      refine ⟨[] :: parts,last,?_,?_⟩
      · simp [split,hsplit]
      · simp [split,happend]
    · obtain ⟨head,tail,hs,hcons⟩ := split_cons_of_ne hc xs
      obtain ⟨head',tail',hs',hcons'⟩ := split_cons_of_ne hc (xs ++ ys)
      rw [List.cons_append,hcons',hcons]
      rw [hsplit] at hs
      rw [happend] at hs'
      cases parts with
      | nil =>
        obtain ⟨rfl,rfl⟩ := List.cons.inj hs
        obtain ⟨rfl,rfl⟩ := List.cons.inj hs'
        exact ⟨[],c :: last,rfl,rfl⟩
      | cons first parts =>
        obtain ⟨rfl,rfl⟩ := List.cons.inj hs
        obtain ⟨rfl,rfl⟩ := List.cons.inj hs'
        exact ⟨(c :: first) :: parts,last,rfl,rfl⟩

theorem intercalate_cons {parts : List (List Char)} (part : List Char) (h : parts ≠ []) :
    ['/'].intercalate (part :: parts) = part ++ '/' :: ['/'].intercalate parts := by
  obtain ⟨next,rest,rfl⟩ := List.exists_cons_of_ne_nil h
  simp [List.intercalate]

theorem intercalate_split (cs : List Char) : ['/'].intercalate (split cs) = cs := by
  induction cs with
  | nil => rfl
  | cons c cs ih =>
    by_cases hc : c = '/'
    · subst hc
      have hs : split ('/' :: cs) = [] :: split cs := by rw [split,if_pos rfl]
      rw [hs,intercalate_cons _ (split_ne_nil cs),ih]
      rfl
    · obtain ⟨part,parts,hs,hcons⟩ := split_cons_of_ne hc cs
      rw [hs] at ih
      rw [hcons]
      cases parts with
      | nil =>
        have hpart : part = cs := by simpa [List.intercalate] using ih
        simp [List.intercalate,hpart]
      | cons next rest =>
        rw [intercalate_cons _ (by simp)] at ih ⊢
        rw [List.cons_append,ih]

theorem split_intercalate {parts : List (List Char)} (hne : parts ≠ [])
    (h : ∀ part ∈ parts, '/' ∉ part) : split (['/'].intercalate parts) = parts := by
  induction parts with
  | nil => exact absurd rfl hne
  | cons part parts ih =>
    by_cases hparts : parts = []
    · subst hparts
      have hone : ['/'].intercalate [part] = part := by simp [List.intercalate]
      rw [hone,split_of_no_slash (h part List.mem_cons_self)]
    · rw [intercalate_cons _ hparts,split_append_slash,
        split_of_no_slash (h part List.mem_cons_self),
        ih hparts fun p hp => h p (List.mem_cons_of_mem _ hp)]
      rfl

theorem prefix_intercalate {kept parts : List (List Char)} (hne : kept ≠ [])
    (h : kept <+: parts) : ['/'].intercalate kept <+: ['/'].intercalate parts := by
  obtain ⟨more,rfl⟩ := h
  induction kept with
  | nil => exact absurd rfl hne
  | cons part kept ih =>
    by_cases hkept : kept = []
    · subst hkept
      have hone : ['/'].intercalate [part] = part := by simp [List.intercalate]
      rw [hone]
      by_cases hmore : more = []
      · subst hmore
        rw [List.append_nil,hone]
      · rw [List.singleton_append,intercalate_cons _ hmore]
        exact List.prefix_append _ _
    · rw [List.cons_append,intercalate_cons _ hkept,
        intercalate_cons _ (by simp [hkept])]
      have hih := ih hkept
      obtain ⟨tail,htail⟩ := hih
      exact ⟨tail,by rw [← htail]; simp⟩

end Split

section Names

/-- A name that a file can have in every directory. -/
structure Ordinary (name : String) : Prop where
  noSlash : '/' ∉ name.toList
  moves : staysPut name = false
  notBack : name ≠ ".."

theorem names_ne_nil (text : String) : names text ≠ [] := by
  simp [names,split_ne_nil]

theorem Ordinary.ne_empty {x : String} (hx : Ordinary x) : x ≠ "" := by
  rintro rfl
  cases hx.moves

theorem Ordinary.step {x : String} (hx : Ordinary x) (path : Path) :
    Path.step path x = path ++ [x] := by
  rw [Path.step,hx.moves,if_neg (by simp),if_neg hx.notBack]

theorem isAbsolute_of_noSlash {x : String} (hx : '/' ∉ x.toList) : isAbsolute x = false := by
  unfold isAbsolute
  cases h : x.toList with
  | nil => rfl
  | cons c rest =>
    have hc : c ≠ '/' := by
      rintro rfl
      exact hx (h ▸ List.mem_cons_self)
    simp [hc]

theorem toList_ne_nil {d : String} (hd : d ≠ "") : d.toList ≠ [] := by
  intro h
  exact hd (String.toList_inj.mp h)

/-- The names of a text joined with an ordinary name, but for a slash at the end of the
text. -/
theorem names_join {d x : String} (hd : d ≠ "") (hx : '/' ∉ x.toList) :
    ∃ l, (names d = l ∨ names d = l ++ [""]) ∧ l ≠ [] ∧ names (join d x) = l ++ [x] ∧
      start (join d x) = start d := by
  have hne := toList_ne_nil hd
  have hx' := isAbsolute_of_noSlash hx
  have hsplit := split_of_no_slash hx
  by_cases hlast : d.toList.getLast? = some '/'
  · obtain ⟨front,hfront⟩ : ∃ front, d.toList = front ++ ['/'] := by
      rw [List.getLast?_eq_some_iff] at hlast
      exact hlast
    have hjoin : join d x = d ++ x := by
      simp [join,hx',hd,hlast]
    refine ⟨(split front).map String.ofList,.inr ?_,?_,?_,?_⟩
    · rw [names,hfront,split_append_slash,List.map_append]
      rfl
    · simp [split_ne_nil]
    · rw [hjoin,names,String.toList_append,hfront,List.append_assoc,List.singleton_append,
        split_append_slash,hsplit,List.map_append]
      simp
    · rw [hjoin]
      simp [start,isAbsolute,hfront]
  · have hjoin : join d x = d ++ "/" ++ x := by
      simp [join,hx',hd,hlast]
    have htext : (d ++ "/" ++ x).toList = d.toList ++ '/' :: x.toList := by
      simp
    refine ⟨names d,.inl rfl,names_ne_nil d,?_,?_⟩
    · rw [hjoin,names,htext,split_append_slash,hsplit,List.map_append,names]
      simp
    · rw [hjoin]
      simp [start,isAbsolute,htext,List.head?_append_of_ne_nil _ hne]

theorem foldl_step_empty (path : Path) (l : List String) :
    (l ++ [""]).foldl Path.step path = l.foldl Path.step path := by
  simp [Path.step,staysPut]

theorem noSlash_of_mem_names {text name : String} (h : name ∈ names text) : '/' ∉ name.toList := by
  obtain ⟨part,hpart,rfl⟩ := List.mem_map.mp h
  rw [String.toList_ofList]
  exact no_slash_of_mem_split hpart

theorem names_of_noSlash {x : String} (hx : '/' ∉ x.toList) : names x = [x] := by
  rw [names,split_of_no_slash hx,List.map_singleton,String.ofList_toList]

/-- The way to an ordinary name joined to a text is the way along the text, and then the
name. -/
theorem way_join (d : String) {x : String} (hx : Ordinary x) : ∃ l, names (join d x) = l ++ [x] ∧
    start (join d x) = start d ∧ l.foldl Path.step (start d) = ofText d ∧
      (d = "" ∧ l = [] ∨ d ≠ "" ∧ l ≠ [] ∧ (names d = l ∨ names d = l ++ [""])) := by
  by_cases hd : d = ""
  · subst hd
    have hjoin : join "" x = x := by simp [join]
    refine ⟨[],?_,?_,rfl,.inl ⟨rfl,rfl⟩⟩
    · rw [hjoin,names_of_noSlash hx.noSlash,List.nil_append]
    · rw [hjoin,start,isAbsolute_of_noSlash hx.noSlash]
      rfl
  · obtain ⟨l,hl,hne,hnames,hstart⟩ := names_join hd hx.noSlash
    refine ⟨l,hnames,hstart,?_,.inr ⟨hd,hne,hl⟩⟩
    rcases hl with hl | hl
    · rw [ofText,hl]
    · rw [ofText,hl,foldl_step_empty]

theorem ofText_join (d : String) {x : String} (hx : Ordinary x) :
    ofText (join d x) = ofText d ++ [x] := by
  obtain ⟨l,hnames,hstart,hfold,_⟩ := way_join d hx
  rw [ofText,hnames,hstart,List.foldl_append,hfold]
  exact hx.step _

theorem trimReversed_eq (l : List String) (hne : l ≠ []) :
    ∃ dropped, l = dropped ++ trimReversed l ∧ trimReversed l ≠ [] ∧
      ∀ name ∈ dropped, staysPut name = true := by
  induction l with
  | nil => exact absurd rfl hne
  | cons name rest ih =>
    rw [trimReversed]
    split
    next h =>
      obtain ⟨hstays,hrest⟩ := Bool.and_eq_true_iff.mp h
      obtain ⟨dropped,hl,hkept,hall⟩ := ih (by simpa using hrest)
      exact ⟨name :: dropped,by rw [List.cons_append,← hl],hkept,
        List.forall_mem_cons.mpr ⟨hstays,hall⟩⟩
    · exact ⟨[],rfl,by simp,by simp⟩

/-- The names that the text of the directory around a joined name keeps. -/
theorem parentText_names {d x : String} (hd : d ≠ "") (hx : Ordinary x) :
    ∃ kept dropped l, (names d = l ∨ names d = l ++ [""]) ∧ l = kept ++ dropped ∧ kept ≠ [] ∧
      (∀ name ∈ dropped, staysPut name = true) ∧
      parentText (join d x) = if kept = [""] then "/" else "/".intercalate kept := by
  obtain ⟨l,hl,hne,hnames,_⟩ := names_join hd hx.noSlash
  obtain ⟨dropped,hdropped,hkept,hall⟩ := trimReversed_eq l.reverse (by simpa using hne)
  refine ⟨(trimReversed l.reverse).reverse,dropped.reverse,l,hl,?_,by simpa using hkept,
    fun name hm => hall name (List.mem_reverse.mp hm),?_⟩
  · rw [← List.reverse_append,← hdropped,List.reverse_reverse]
  · have htrim : trimReversed (l ++ [x]).reverse = x :: l.reverse := by
      rw [List.reverse_append,List.reverse_singleton,List.singleton_append,trimReversed,hx.moves]
      simp
    rw [parentText,hnames,htrim,List.drop_succ_cons,List.drop_zero]
    split
    next h => exact absurd h (by simpa using hkept)
    next h => rw [h,if_pos rfl]
    next hno hone => rw [if_neg hone]

theorem intercalate_names (text : String) : "/".intercalate (names text) = text := by
  apply String.toList_inj.mp
  rw [String.toList_intercalate,names,List.map_map]
  have hid : (String.toList ∘ String.ofList) = id := by
    funext cs
    simp
  rw [hid,List.map_id]
  exact intercalate_split _

theorem names_intercalate {kept : List String} (hne : kept ≠ [])
    (h : ∀ name ∈ kept, '/' ∉ name.toList) : names ("/".intercalate kept) = kept := by
  have hparts : ∀ part ∈ kept.map String.toList, '/' ∉ part := by
    intro part hpart
    obtain ⟨name,hname,rfl⟩ := List.mem_map.mp hpart
    exact h name hname
  rw [names,String.toList_intercalate]
  show (split (['/'].intercalate (kept.map String.toList))).map String.ofList = kept
  rw [split_intercalate (by simpa using hne) hparts,List.map_map]
  have hid : (String.ofList ∘ String.toList) = id := by
    funext name
    simp
  rw [hid,List.map_id]

theorem prefix_intercalate_names {kept more : List String} (hne : kept ≠ []) {text : String}
    (h : names text = kept ++ more) : ("/".intercalate kept).toList <+: text.toList := by
  have htext := intercalate_names text
  rw [h] at htext
  rw [← htext,String.toList_intercalate,String.toList_intercalate]
  refine prefix_intercalate (by simpa using hne) ?_
  rw [List.map_append]
  exact List.prefix_append _ _

/-- Nothing unspeakable comes of leaving characters out at the end. -/
theorem speakable_of_prefix {t d : String} (h : t.toList <+: d.toList)
    (hd : unspeakable d = false) : unspeakable t = false := by
  obtain ⟨more,hmore⟩ := h
  have htext : d = t ++ String.ofList more := by
    apply String.toList_inj.mp
    rw [String.toList_append,String.toList_ofList,hmore]
  subst htext
  simp only [unspeakable,Bool.or_eq_false_iff,decide_eq_false_iff_not,String.toList_append,
    List.contains_eq_mem,List.mem_append,String.utf8ByteSize_append,not_or] at hd ⊢
  exact ⟨hd.1.1,by omega⟩

theorem isAbsolute_iff (text : String) :
    isAbsolute text = true ↔ ∃ more, names text = "" :: more ∧ more ≠ [] := by
  unfold isAbsolute names
  cases h : text.toList with
  | nil => simp [split]
  | cons c rest =>
    by_cases hc : c = '/'
    · subst hc
      simp [split,split_ne_nil]
    · obtain ⟨part,parts,_,hcons⟩ := split_cons_of_ne hc rest
      simp [hcons,hc]

/-- The way along the text of the directory around a joined name. -/
theorem parentText_way {d x : String} (hd : d ≠ "") (hx : Ordinary x) : ∃ kept dropped l,
    (names d = l ∨ names d = l ++ [""]) ∧ l = kept ++ dropped ∧ kept ≠ [] ∧
      (∀ name ∈ dropped, staysPut name = true) ∧
      (kept = [""] ∧ parentText (join d x) = "/" ∨
        names (parentText (join d x)) = kept ∧ start (parentText (join d x)) = start d ∧
          parentText (join d x) ≠ "" ∧ (parentText (join d x)).toList <+: d.toList) := by
  obtain ⟨kept,dropped,l,hl,hkept,hne,hdropped,hparent⟩ := parentText_names hd hx
  refine ⟨kept,dropped,l,hl,hkept,hne,hdropped,?_⟩
  obtain ⟨more,hmore⟩ : ∃ more, names d = kept ++ more := by
    rcases hl with hl | hl
    · exact ⟨dropped,by rw [hl,hkept]⟩
    · exact ⟨dropped ++ [""],by rw [hl,hkept,List.append_assoc]⟩
  by_cases hroot : kept = [""]
  · exact .inl ⟨hroot,by rw [hparent,if_pos hroot]⟩
  rw [if_neg hroot] at hparent
  rw [hparent]
  have hnoSlash : ∀ name ∈ kept, '/' ∉ name.toList := fun name hname =>
    noSlash_of_mem_names (hmore ▸ List.mem_append_left _ hname)
  have hback := names_intercalate hne hnoSlash
  have hsame : isAbsolute ("/".intercalate kept) = isAbsolute d := by
    rw [Bool.eq_iff_iff,isAbsolute_iff,isAbsolute_iff,hback,hmore]
    obtain ⟨first,rest,rfl⟩ := List.exists_cons_of_ne_nil hne
    constructor
    · rintro ⟨tail,htail,htne⟩
      obtain ⟨rfl,rfl⟩ := List.cons.inj htail
      exact ⟨rest ++ more,rfl,by simp [htne]⟩
    · rintro ⟨tail,htail,htne⟩
      obtain ⟨rfl,rfl⟩ := List.cons.inj htail
      exact ⟨rest,rfl,fun hnil => hroot (by rw [hnil])⟩
  have hempty : "/".intercalate kept ≠ "" := by
    intro hempty
    rw [hempty] at hback
    exact hroot hback.symm
  exact .inr ⟨hback,by rw [start,start,hsame],hempty,prefix_intercalate_names hne hmore⟩

/-- The directory around a name in a directory within another one. -/
theorem parentText_join_join {d m x : String} (hm : Ordinary m) (hx : Ordinary x) :
    parentText (join (join d m) x) = join d m := by
  obtain ⟨l,hnames,_⟩ := way_join d hm
  have hne : join d m ≠ "" := by
    intro hempty
    have hlast := congrArg List.getLast? hnames
    rw [hempty,List.getLast?_concat] at hlast
    exact hm.ne_empty (Option.some.inj hlast).symm
  obtain ⟨kept,hwhole,_,hjoin,_⟩ := names_join hne hx.noSlash
  have hkept : kept = l ++ [m] := by
    rcases hwhole with h | h
    · rw [← h,hnames]
    · have hlast := congrArg List.getLast? (hnames.symm.trans h)
      rw [List.getLast?_concat,List.getLast?_concat] at hlast
      exact absurd (Option.some.inj hlast) hm.ne_empty
  have hfirst : trimReversed (x :: m :: l.reverse) = x :: m :: l.reverse := by
    simp [trimReversed,hx.moves]
  have hsecond : trimReversed (m :: l.reverse) = m :: l.reverse := by
    simp [trimReversed,hm.moves]
  have hreverse : (names (join (join d m) x)).reverse = x :: m :: l.reverse := by
    rw [hjoin,hkept]
    simp
  have hback : (m :: l.reverse).reverse = names (join d m) := by
    rw [hnames]
    simp
  rw [parentText,hreverse,hfirst,List.drop_succ_cons,List.drop_zero,hsecond,hback]
  split
  next h => exact absurd h (names_ne_nil _)
  next h =>
    rw [h] at hnames
    have hlast := congrArg List.getLast? hnames
    rw [List.getLast?_concat] at hlast
    exact absurd (Option.some.inj hlast).symm hm.ne_empty
  next => exact intercalate_names _

end Names
end Wiring.Path
