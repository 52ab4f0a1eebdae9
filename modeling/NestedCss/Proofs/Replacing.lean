import NestedCss.Proofs.NameRuns

/-!
# Replacing a word everywhere

A word is replaced wherever it stands in a text, from the left and without overlap. An occurrence of
a word holds no character that is none of a word. So the text may be parted beside any such
character and the word replaced in each part by itself.
-/

set_option autoImplicit false

namespace NestedCss.Text

/-- Replaces a text by another, behind a number of characters that are replaced already. -/
def replaceAllFrom (old new : Text) : Nat → Text → Text
  | _, [] => []
  | n + 1, _ :: r => replaceAllFrom old new n r
  | 0, c :: r =>
    if old.isPrefixOf (c :: r) then new ++ replaceAllFrom old new (old.length - 1) r
    else c :: replaceAllFrom old new 0 r

/-- Replaces a text that is not empty wherever it stands. -/
def replaceAll (old new t : Text) : Text := replaceAllFrom old new 0 t

theorem replaceAllFrom_append (old new w t : Text) :
    replaceAllFrom old new w.length (w ++ t) = replaceAllFrom old new 0 t := by
  induction w with
  | nil => rfl
  | cons c w ih => exact ih

theorem replaceAll_prefix (old new t : Text) (hn : old ≠ []) :
    replaceAll old new (old ++ t) = new ++ replaceAll old new t := by
  obtain ⟨c, w, rfl⟩ := List.exists_cons_of_ne_nil hn
  have hp : (c :: w).isPrefixOf (c :: (w ++ t)) = true :=
    List.isPrefixOf_iff_prefix.mpr (List.prefix_append (c :: w) t)
  rw [List.cons_append, replaceAll, replaceAllFrom, if_pos hp, List.length_cons,
    Nat.add_sub_cancel, replaceAllFrom_append]
  rfl

theorem replaceAll_cons (old new : Text) (c : Char) (t : Text) (h : ¬ old <+: c :: t) :
    replaceAll old new (c :: t) = c :: replaceAll old new t := by
  rw [replaceAll, replaceAllFrom, if_neg (by rwa [List.isPrefixOf_iff_prefix])]
  rfl

theorem replaceAll_absent (old new t : Text) (h : ¬ old <:+: t) :
    replaceAll old new t = t := by
  induction t with
  | nil => rfl
  | cons c t ih =>
    rw [replaceAll_cons old new c t fun hp => h hp.isInfix,
      ih fun hi => h (hi.trans (List.suffix_cons c t).isInfix)]

/-! ## Texts within texts -/

theorem infix_join (separator t : Text) (ts : List Text) (h : t ∈ ts) :
    t <:+: join separator ts := by
  induction ts with
  | nil => simp at h
  | cons u ts ih =>
    cases ts with
    | nil => simp_all [join]
    | cons v vs =>
      rw [join_cons_cons]
      rcases List.mem_cons.mp h with rfl | h
      · exact (List.prefix_append _ _).isInfix
      · exact (ih h).trans ((List.suffix_append _ _).trans (List.suffix_append _ _)).isInfix

/-- A text that stands beside a character it does not hold stands before or behind it. -/
theorem infix_apart (w s t : Text) (c : Char) (hn : w ≠ []) (hc : c ∉ w)
    (h : w <:+: s ++ c :: t) : w <:+: s ∨ w <:+: t := by
  have head : ∀ v : Text, v <+: c :: t → c ∉ v → v = [] := by
    intro v hv hcv
    rcases List.prefix_cons_iff.mp hv with rfl | ⟨u, rfl, -⟩
    · rfl
    · simp at hcv
  rcases List.infix_append_iff.mp h with h | h | ⟨u, v, rfl, hu, hv⟩
  · exact Or.inl h
  · rcases List.infix_cons_iff.mp h with h | h
    · exact absurd (head w h hc) hn
    · exact Or.inr h
  · obtain rfl := head v hv fun hm => hc (List.mem_append_right u hm)
    rw [List.append_nil]
    exact Or.inl hu.isInfix

/-! ## Words -/

/-- Whether no word reaches from one text into another behind it. -/
def Parted (s t : Text) : Prop :=
  (∀ c ∈ s.getLast?, isWord c = false) ∨ ∀ c ∈ t.head?, isWord c = false

theorem parted_cons (s : Text) (c : Char) (t : Text) (hc : isWord c = false) : Parted s (c :: t) :=
  Or.inr (by simpa using hc)

theorem parted_concat (s : Text) (c : Char) (t : Text) (hc : isWord c = false) :
    Parted (s ++ [c]) t :=
  Or.inl (by simpa using hc)

variable {w : Text}

/-- A word that begins a text in two parts lies within the first. -/
theorem prefix_of_parted (hw : IsWordText w) (s t : Text) (hs : s ≠ []) (hp : Parted s t)
    (h : w <+: s ++ t) : w <+: s := by
  obtain ⟨u, hu⟩ := h
  rcases List.append_eq_append_iff.mp hu with ⟨v, rfl, -⟩ | ⟨v, rfl, rfl⟩
  · exact List.prefix_append w v
  · cases v with
    | nil => simp
    | cons c v =>
      exfalso
      rcases hp with hp | hp
      · obtain ⟨s, a, rfl⟩ := (List.eq_nil_or_concat s).resolve_left hs
        have ha := hp a (by simp)
        rw [hw.2 a (by simp)] at ha
        exact Bool.noConfusion ha
      · have hc := hp c (by simp)
        rw [hw.2 c (by simp)] at hc
        exact Bool.noConfusion hc

theorem Parted.tail {c : Char} {s t : Text} (hp : Parted (c :: s) t) : Parted s t := by
  rcases hp with hp | hp
  · cases s with
    | nil => exact Or.inl (by simp)
    | cons d s => exact Or.inl (by simpa using hp)
  · exact Or.inr hp

theorem infix_beside (hw : IsWordText w) (s : Text) (c : Char) (t : Text)
    (hc : isWord c = false) (h : w <:+: s ++ c :: t) : w <:+: s ∨ w <:+: t :=
  infix_apart w s t c hw.1 (fun hm => Bool.noConfusion ((hw.2 c hm).symm.trans hc)) h

/-- In each part the word is replaced by itself. -/
theorem replaceAll_append (hw : IsWordText w) (new s t : Text) (hp : Parted s t) :
    replaceAll w new (s ++ t) = replaceAll w new s ++ replaceAll w new t := by
  induction hl : s.length using Nat.strong_induction_on generalizing s with
  | _ k ih =>
    subst hl
    cases s with
    | nil => rfl
    | cons c s =>
      by_cases h : w <+: c :: s
      · obtain ⟨u, hu⟩ := h
        have hlt : u.length < (c :: s).length := by
          have := List.length_pos_iff.mpr hw.1
          rw [← hu, List.length_append]
          omega
        have hpu : Parted u t := by
          rcases hp with hp | hp
          · refine Or.inl fun d hd => hp d ?_
            rw [← hu, List.getLast?_append]
            simp [Option.mem_def.mp hd]
          · exact Or.inr hp
        rw [← hu, List.append_assoc, replaceAll_prefix w new _ hw.1, replaceAll_prefix w new _ hw.1,
          ih u.length hlt u hpu rfl, List.append_assoc]
      · have ha : ¬ w <+: c :: (s ++ t) := fun ha =>
          h (prefix_of_parted hw (c :: s) t (by simp) hp ha)
        rw [List.cons_append, replaceAll_cons w new c _ ha, replaceAll_cons w new c s h,
          ih s.length (by simp) s hp.tail rfl, List.cons_append]

theorem replaceAll_nonword (hw : IsWordText w) (new : Text) (c : Char) (t : Text)
    (hc : isWord c = false) : replaceAll w new (c :: t) = c :: replaceAll w new t := by
  refine replaceAll_cons w new c t fun hp => ?_
  obtain ⟨a, v, rfl⟩ := List.exists_cons_of_ne_nil hw.1
  obtain ⟨u, hu⟩ := hp
  rw [List.cons_append] at hu
  obtain rfl := (List.cons.inj hu).1
  exact Bool.noConfusion ((hw.2 a (by simp)).symm.trans hc)

theorem replaceAll_beside (hw : IsWordText w) (new s : Text) (c : Char) (t : Text)
    (hc : isWord c = false) :
    replaceAll w new (s ++ c :: t) = replaceAll w new s ++ c :: replaceAll w new t := by
  rw [replaceAll_append hw new s _ (parted_cons s c t hc), replaceAll_nonword hw new c t hc]

theorem replaceAll_join (hw : IsWordText w) (new : Text) (c : Char) (hc : isWord c = false)
    (ts : List Text) : replaceAll w new (join [c] ts) = join [c] (ts.map (replaceAll w new)) := by
  induction ts with
  | nil => rfl
  | cons t ts ih =>
    cases ts with
    | nil => simp [join]
    | cons u us =>
      rw [join_cons_cons, List.singleton_append, replaceAll_beside hw new t c _ hc, ih,
        List.map_cons, List.map_cons, List.map_cons, join_cons_cons, List.singleton_append]

/-! ## Words before names -/

theorem head_replaceFrom_true (ns : List Text) (f : Text → Text) (t : Text) :
    (replaceFrom ns f true 0 t).head? = t.head? := by
  cases t <;> rfl

/-- Behind a name either the name ends in no word character or none begins what follows. -/
theorem parted_name (ns : List Text) (f : Text → Text) (n s : Text) (hn : n ≠ [])
    (hs : ∀ c ∈ s.head?, isName c = false) :
    Parted ('_' :: n) (replaceFrom ns f (n.foldl (fun _ => isName) false) 0 s) := by
  obtain ⟨m, d, rfl⟩ := (List.eq_nil_or_concat n).resolve_left hn
  rw [List.concat_eq_append, List.foldl_concat]
  cases hd : isWord d with
  | false => exact parted_concat ('_' :: m) d _ hd
  | true =>
    refine Or.inr fun c hc => ?_
    rw [isName_of_isWord d hd, head_replaceFrom_true] at hc
    exact Bool.eq_false_iff.mpr fun hw => by simpa [hs c hc] using isName_of_isWord c hw

/-- Where words are put before names, replacing one word gives what putting the other gives. -/
theorem replaceAll_replaceFrom {a : Text} (ha : IsWordText a) (b : Text) (ns : List Text)
    (hn : ∀ n ∈ ns, n ≠ [] ∧ ¬ a <:+: '_' :: n) (t : Text) (inName : Bool) (ht : ¬ a <:+: t) :
    replaceAll a b (replaceFrom ns (a ++ ['_'] ++ ·) inName 0 t) =
      replaceFrom ns (b ++ ['_'] ++ ·) inName 0 t := by
  induction hl : t.length using Nat.strong_induction_on generalizing t inName with
  | _ k ih =>
    subst hl
    cases t with
    | nil => rfl
    | cons c t =>
      rcases replaceFrom_cases ns (fun n hm => (hn n hm).1) c t inName with
        h | ⟨-, n, hm, s, hs, hd, h⟩
      · rw [h, h]
        cases hc : isWord c with
        | false =>
          rw [replaceAll_nonword ha b c _ hc, ih t.length (by simp) t _ _ rfl]
          exact fun hi => ht (hi.trans (List.suffix_cons c t).isInfix)
        | true =>
          -- No name begins within the rest of the word.
          obtain ⟨v, s, rfl, hv, hs⟩ := exists_run isWord t
          have hr := fun f => replaceFrom_within ns f v s fun d hd => isName_of_isWord d (hv d hd)
          have hp : Parted (c :: v) (replaceFrom ns (a ++ ['_'] ++ ·) true 0 s) := by
            refine Or.inr ?_
            rwa [head_replaceFrom_true]
          have hcv : ¬ a <:+: c :: v := fun hi =>
            ht (hi.trans (List.prefix_append (c :: v) s).isInfix)
          have hsi : ¬ a <:+: s := fun hi => ht (hi.trans (List.suffix_append (c :: v) s).isInfix)
          have hlt : s.length < (c :: (v ++ s)).length := by
            rw [List.length_cons, List.length_append]
            omega
          rw [isName_of_isWord c hc, hr, hr, ← List.cons_append, replaceAll_append ha b _ _ hp,
            replaceAll_absent a b _ hcv, ih s.length hlt s true hsi rfl, List.cons_append]
      · obtain ⟨hne, hni⟩ := hn n hm
        have hlt : s.length < (c :: t).length := by
          have := List.length_pos_iff.mpr hne
          rw [hs, List.length_append]
          omega
        have hsi : ¬ a <:+: s := fun hi => ht (hs ▸ hi.trans (List.suffix_append n s).isInfix)
        have hp := parted_name ns (a ++ ['_'] ++ ·) n s hne hd
        rw [h, h, ← ih s.length hlt s _ hsi rfl]
        have he : ∀ (a u : Text), a ++ ['_'] ++ n ++ u = a ++ ('_' :: n ++ u) := by simp
        rw [he, he, replaceAll_prefix a b _ ha.1, replaceAll_append ha b _ _ hp,
          replaceAll_absent a b _ hni]

end NestedCss.Text
