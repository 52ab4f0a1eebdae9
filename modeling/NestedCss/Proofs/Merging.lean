import NestedCss.Proofs.Containment
import NestedCss.Proofs.Repeats
import NestedCss.Proofs.Trimming

/-!
# Merged conditions

No part of a condition holds an `and` that is a word of its own, so the parts of a merged condition
are the parts that were merged, and merging what has been merged changes nothing. So conditions may
be merged all at once or in stages.
-/

set_option autoImplicit false

namespace NestedCss.Condition

/-! ## Parting at a border -/

/-- Puts the last of some texts and the first of others together. -/
def weld : List Text → List Text → List Text
  | [], vs => vs
  | [p], v :: vs => (p ++ v) :: vs
  | p :: ps, vs => p :: weld ps vs

theorem weld_ne_nil (ps vs : List Text) (h : ps ≠ []) : weld ps vs ≠ [] := by
  match ps, vs with
  | [p], [] => exact List.cons_ne_nil _ _
  | [p], v :: vs => exact List.cons_ne_nil _ _
  | p :: q :: ps, vs => exact List.cons_ne_nil _ _

theorem weld_cons (p : Text) (ps vs : List Text) (h : ps ≠ []) :
    weld (p :: ps) vs = p :: weld ps vs := by
  obtain ⟨q, ps, rfl⟩ := List.exists_cons_of_ne_nil h
  cases vs <;> rfl

theorem weld_singleton (p v : Text) (vs : List Text) : weld [p] (v :: vs) = (p ++ v) :: vs := rfl

theorem weld_assoc (ps vs ws : List Text) (h : vs ≠ []) :
    weld (weld ps vs) ws = weld ps (weld vs ws) := by
  obtain ⟨v, vs, rfl⟩ := List.exists_cons_of_ne_nil h
  induction ps with
  | nil => rfl
  | cons p ps ih =>
    by_cases hps : ps = []
    · subst hps
      by_cases hvs : vs = []
      · subst hvs
        cases ws <;> simp [weld]
      · rw [weld_singleton, weld_cons _ vs ws hvs, weld_cons v vs ws hvs, weld_singleton]
    · rw [weld_cons p ps _ hps, weld_cons p ps _ hps, weld_cons p _ ws (weld_ne_nil ps _ hps), ih]

theorem consFirst_weld (c : Char) (ps : List Text) (h : ps ≠ []) :
    Text.consFirst c ps = weld [[c]] ps := by
  obtain ⟨p, ps, rfl⟩ := List.exists_cons_of_ne_nil h
  rfl

theorem weld_consFirst (c : Char) (ps vs : List Text) (h : ps ≠ []) :
    weld (Text.consFirst c ps) vs = Text.consFirst c (weld ps vs) := by
  rw [consFirst_weld c ps h, weld_assoc _ _ _ h, consFirst_weld c _ (weld_ne_nil ps vs h)]

theorem eq_singleton_of_weld_left (ps : List Text) (s t : Text) (hn : ps ≠ [])
    (h : weld [s] ps = [s ++ t]) : ps = [t] := by
  match ps with
  | [p] => rw [List.append_cancel_left (List.singleton_inj.mp h)]
  | p :: q :: ps => exact absurd (List.cons.inj h).2 (by simp)

theorem eq_singleton_of_weld (ps : List Text) (t v : Text) (hn : ps ≠ [])
    (h : weld ps [v] = [t ++ v]) : ps = [t] := by
  match ps with
  | [p] => rw [List.append_cancel_right (List.singleton_inj.mp h)]
  | p :: q :: ps => exact absurd (List.cons.inj h).2 (weld_ne_nil _ _ (List.cons_ne_nil q ps))

theorem part_and_cons (b : Bool) (r : Text) : part b ('a' :: 'n' :: 'd' :: r) =
    if !b && !r.head?.any Text.isWord then [] :: part true r
    else Text.consFirst 'a' (part true ('n' :: 'd' :: r)) := rfl

/-- A character that begins no `and` belongs to the first part. -/
theorem part_cons (b : Bool) (c : Char) (r : Text) (h : c = 'a' → ∀ x, r ≠ 'n' :: 'd' :: x) :
    part b (c :: r) = Text.consFirst c (part (Text.isWord c) r) := by
  rw [part]
  exact fun x hc hr => h hc x hr

theorem part_ne_nil (b : Bool) (t : Text) : part b t ≠ [] := by
  fun_cases part b t with
  | case1 => simp
  | case2 => simp
  | case3 => exact Text.consFirst_ne_nil _ _
  | case4 => exact Text.consFirst_ne_nil _ _

/-- A character that is no word character takes part in no `and`. -/
theorem part_solid (b : Bool) (c : Char) (t : Text) (hc : Text.isWord c = false) :
    part b (c :: t) = Text.consFirst c (part false t) := by
  have ha : c ≠ 'a' := by
    rintro rfl
    exact absurd hc (by decide)
  rw [part_cons b c t fun hca => absurd hca ha, hc]

theorem part_start (b : Bool) (t : Text) (h : t.head?.any Text.isWord = false) :
    part b t = part false t := by
  cases t with
  | nil => rfl
  | cons c t => rw [part_solid b c t h, part_solid false c t h]

/-- Before a character that is no word character a text is parted as it is by itself. -/
theorem part_append (b : Bool) (s t : Text) (ht : t.head?.any Text.isWord = false) :
    part b (s ++ t) = weld (part b s) (part false t) := by
  have hv := part_ne_nil false t
  fun_induction part b s with
  | case1 b =>
    obtain ⟨v, vs, hvs⟩ := List.exists_cons_of_ne_nil hv
    rw [List.nil_append, part_start b t ht, hvs]
    rfl
  | case2 b r hw ih =>
    have hr : (r ++ t).head?.any Text.isWord = r.head?.any Text.isWord := by
      cases r with
      | nil => simpa using ht
      | cons c r => rfl
    rw [weld_cons [] _ _ (part_ne_nil true r), ← ih]
    simp only [List.cons_append, part_and_cons, hr, hw, if_true]
  | case3 b r hw ih =>
    have hr : (!b && !(r ++ t).head?.any Text.isWord) = false := by
      cases r with
      | nil =>
        have hb : b = true := by simpa using hw
        simp [hb]
      | cons c r => simpa using hw
    rw [weld_consFirst _ _ _ (part_ne_nil _ _), ← ih]
    simp only [List.cons_append, part_and_cons, hr, Bool.false_eq_true, if_false]
  | case4 b c r hne ih =>
    rw [weld_consFirst _ _ _ (part_ne_nil _ _), ← ih, List.cons_append, part_cons]
    -- What comes behind cannot complete an `and` that the text begins.
    intro hc x hx
    match r with
    | [] =>
      obtain rfl : t = 'n' :: 'd' :: x := hx
      exact absurd ht (by simp; decide)
    | [a] =>
      obtain rfl : t = 'd' :: x := (List.cons.inj hx).2
      exact absurd ht (by simp; decide)
    | a :: e :: r =>
      obtain ⟨ha, hx⟩ := List.cons.inj hx
      exact hne r hc (by rw [ha, (List.cons.inj hx).1])

/-! ## Whole parts -/

/-- Whether no `and` that is a word of its own stands in a text. -/
def Whole (t : Text) : Prop := part false t = [t]

theorem part_true_head (t p : Text) (ps : List Text) (h : part true t = p :: ps) :
    p.head? = t.head? := by
  have hc : ∀ (c : Char) (r : Text) (qs : List Text), qs ≠ [] → Text.consFirst c qs = p :: ps →
      p.head? = (c :: r).head? := by
    intro c r qs hq he
    obtain ⟨q, qs, rfl⟩ := List.exists_cons_of_ne_nil hq
    obtain ⟨rfl, -⟩ := List.cons.inj he
    rfl
  cases t with
  | nil =>
    obtain ⟨rfl, -⟩ := List.cons.inj h
    rfl
  | cons c r =>
    by_cases ha : c = 'a' ∧ ∃ x, r = 'n' :: 'd' :: x
    · obtain ⟨rfl, x, rfl⟩ := ha
      rw [part_and_cons, if_neg (by simp)] at h
      exact hc _ _ _ (part_ne_nil _ _) h
    · rw [part_cons true c r fun hca x hx => ha ⟨hca, x, hx⟩] at h
      exact hc _ _ _ (part_ne_nil _ _) h

theorem part_nd (b : Bool) (r : Text) :
    part b ('n' :: 'd' :: r) = Text.consFirst 'n' (Text.consFirst 'd' (part true r)) := by
  have hd : Text.isWord 'd' = true := by decide
  rw [part_cons b 'n' _ (by simp), part_cons _ 'd' r (by simp), hd]

/-- The first part is whole where it stands, and each part behind an `and` starts afresh. -/
theorem part_parts (b : Bool) (t : Text) : ∃ p ps, part b t = p :: ps ∧ p <+: t ∧
    part b p = [p] ∧ ∀ q ∈ ps, part true q = [q] ∧ q.head?.any Text.isWord = false := by
  fun_induction part b t with
  | case1 b => exact ⟨[], [], rfl, List.prefix_refl _, rfl, by simp⟩
  | case2 b r hw ih =>
    obtain ⟨p, ps, hp, hpre, hpp, hps⟩ := ih
    refine ⟨[], p :: ps, by rw [hp], List.nil_prefix, rfl, ?_⟩
    have hh : p.head?.any Text.isWord = false := by
      rw [part_true_head r p ps hp]
      simpa using (Bool.and_eq_true_iff.mp hw).2
    simpa using ⟨⟨hpp, hh⟩, hps⟩
  | case3 b r hw ih =>
    obtain ⟨p, ps, hp, hpre, hpp, hps⟩ := ih
    refine ⟨'a' :: p, ps, by rw [hp]; rfl, List.cons_prefix_cons.mpr ⟨rfl, hpre⟩, ?_, hps⟩
    -- The first part reaches behind the `and`, so the same character comes there.
    obtain ⟨q, qs, hq⟩ := List.exists_cons_of_ne_nil (part_ne_nil true r)
    obtain ⟨rfl, -⟩ : 'n' :: 'd' :: q = p ∧ qs = ps := by
      rw [part_nd, hq] at hp
      exact List.cons.inj hp
    rw [part_and_cons, if_neg, hpp]
    · rfl
    · rwa [part_true_head r q qs hq]
  | case4 b c r hne ih =>
    obtain ⟨p, ps, hp, hpre, hpp, hps⟩ := ih
    refine ⟨c :: p, ps, by rw [hp]; rfl, List.cons_prefix_cons.mpr ⟨rfl, hpre⟩, ?_, hps⟩
    rw [part_cons, hpp]
    · rfl
    · intro hc x hx
      obtain ⟨u, rfl⟩ := hpre
      exact hne (x ++ u) hc (by rw [hx]; rfl)

theorem whole_of_mem (t p : Text) (h : p ∈ part false t) : Whole p := by
  obtain ⟨q, qs, hq, -, hqq, hqs⟩ := part_parts false t
  rw [hq] at h
  rcases List.mem_cons.mp h with rfl | h
  · exact hqq
  · obtain ⟨hp, hh⟩ := hqs p h
    rwa [Whole, ← part_start true p hh]

theorem isWord_blank (c : Char) (h : Text.isBlank c = true) : Text.isWord c = false := by
  by_contra hw
  exact Bool.noConfusion (h.symm.trans (Text.isBlank_word c (by simpa using hw)))

theorem part_blanks (b : Text) (h : ∀ c ∈ b, Text.isBlank c = true) : Whole b := by
  induction b with
  | nil => rfl
  | cons c b ih =>
    rw [Whole, part_solid _ c b (isWord_blank c (h c (by simp))), ih fun a ha => h a (by simp [ha])]
    rfl

theorem start_blank (b : Text) (h : ∀ c ∈ b, Text.isBlank c = true) :
    b.head?.any Text.isWord = false := by
  cases b with
  | nil => rfl
  | cons c b => exact isWord_blank c (h c (by simp))

/-- Blanks around a text stand in its first and in its last part. -/
theorem part_trim (t : Text) : ∃ front back, t = front ++ (Text.trim t ++ back) ∧
    (∀ c ∈ front, Text.isBlank c = true) ∧ (∀ c ∈ back, Text.isBlank c = true) ∧
    part false t = weld [front] (weld (part false (Text.trim t)) [back]) := by
  obtain ⟨front, back, ht, hf, hb⟩ := Path.Watch.trim_split t
  have hm : part false (Text.trim t ++ back) = weld (part false (Text.trim t)) [back] := by
    rw [part_append _ _ back (start_blank back hb), part_blanks back hb]
  refine ⟨front, back, ht, hf, hb, ?_⟩
  rw [← hm]
  nth_rewrite 1 [ht]
  generalize Text.trim t ++ back = m
  obtain ⟨p, ps, hp⟩ := List.exists_cons_of_ne_nil (part_ne_nil false m)
  clear ht hb hm
  induction front with
  | nil =>
    rw [List.nil_append, hp]
    rfl
  | cons c front ih =>
    rw [List.cons_append, part_solid _ c _ (isWord_blank c (hf c (by simp))),
      ih fun a ha => hf a (by simp [ha]), hp]
    rfl

theorem whole_trim (t : Text) (h : Whole t) : Whole (Text.trim t) := by
  obtain ⟨front, back, ht, -, -, hp⟩ := part_trim t
  have hn := part_ne_nil false (Text.trim t)
  rw [h] at hp
  nth_rewrite 1 [ht] at hp
  exact eq_singleton_of_weld _ _ back hn
    (eq_singleton_of_weld_left _ front _ (weld_ne_nil _ _ hn) hp.symm)

/-- The parts of a condition without its keyword, trimmed, without those that are empty. -/
def fragments (c : Text) : List Text := ((part false c).map Text.trim).filter (· ≠ [])

theorem conjuncts_eq (t : Text) : conjuncts t = fragments (afterKeyword t) := rfl

theorem mem_fragments (c p : Text) (h : p ∈ fragments c) : Whole p ∧ Text.trim p = p ∧ p ≠ [] := by
  simp only [fragments, List.mem_filter, List.mem_map, decide_eq_true_eq] at h
  obtain ⟨⟨q, hq, rfl⟩, hn⟩ := h
  exact ⟨whole_trim q (whole_of_mem _ q hq), Text.trim_trim q, hn⟩

/-! ## Merging again -/

theorem trim_blank_append (b t : Text) (h : ∀ c ∈ b, Text.isBlank c = true) :
    Text.trim (b ++ t) = Text.trim t := by
  rw [Text.trim, List.dropWhile_append_of_pos h, Text.trim]

theorem map_trim_blank (c : Char) (ps : List Text) (hc : Text.isBlank c = true) (hn : ps ≠ []) :
    (Text.consFirst c ps).map Text.trim = ps.map Text.trim := by
  obtain ⟨p, ps, rfl⟩ := List.exists_cons_of_ne_nil hn
  have hp : Text.trim (c :: p) = Text.trim p := trim_blank_append [c] p (by simpa using hc)
  rw [Text.consFirst, List.map_cons, List.map_cons, hp]

theorem fragments_space (t : Text) : fragments (' ' :: t) = fragments t := by
  rw [fragments, part_solid _ ' ' t (by decide),
    map_trim_blank ' ' _ (by decide) (part_ne_nil false t), fragments]

theorem join_joint (p q : Text) (ps : List Text) : Text.join joint (p :: q :: ps) =
    p ++ ' ' :: 'a' :: 'n' :: 'd' :: ' ' :: Text.join joint (q :: ps) := by
  simp [Text.join, joint, List.intercalate]

/-- A whole part in front of others keeps the space of its joint. -/
theorem part_join (p q : Text) (ps : List Text) (hp : Whole p) :
    part false (Text.join joint (p :: q :: ps)) =
      (p ++ [' ']) :: Text.consFirst ' ' (part false (Text.join joint (q :: ps))) := by
  have hs : part false (' ' :: 'a' :: 'n' :: 'd' :: ' ' :: Text.join joint (q :: ps)) =
      [' '] :: part true (' ' :: Text.join joint (q :: ps)) := by
    rw [part_solid _ ' ' _ (by decide), part_and_cons, if_pos (by simp; decide)]
    rfl
  rw [join_joint, part_append _ _ _ (by simp; decide), hp, hs, weld, part_solid _ ' ' _ (by decide)]

/-- Whole parts that are joined are parted where they were joined. -/
theorem parts_join (ps : List Text) (hn : ps ≠ []) (h : ∀ p ∈ ps, Whole p ∧ Text.trim p = p) :
    (part false (Text.join joint ps)).map Text.trim = ps := by
  induction ps with
  | nil => exact absurd rfl hn
  | cons p ps ih =>
    obtain ⟨hp, ht⟩ := h p (by simp)
    cases ps with
    | nil =>
      have hj : Text.join joint [p] = p := by simp [Text.join]
      rw [hj, hp, List.map_singleton, ht]
    | cons q ps =>
      have hi := ih (by simp) fun a ha => h a (by simp [ha])
      rw [part_join p q ps hp, List.map_cons, map_trim_blank _ _ (by decide) (part_ne_nil _ _), hi,
        Text.trim_append_blank p [' '] (by simp; decide), ht]

theorem fragments_join (ps : List Text) (hn : ps ≠ [])
    (h : ∀ p ∈ ps, Whole p ∧ Text.trim p = p ∧ p ≠ []) : fragments (Text.join joint ps) = ps := by
  rw [fragments, parts_join ps hn fun p hp => ⟨(h p hp).1, (h p hp).2.1⟩]
  exact List.filter_eq_self.mpr fun p hp => by simpa using (h p hp).2.2

/-- The at-keyword of what is merged under a condition. -/
def leading (t : Text) : Text := (keyword? t).getD "@media".toList

/-- The parts of what is merged. -/
def merged (ts : List Text) : List Text := (ts.flatMap conjuncts).eraseDups

/-- The parts of what is merged are whole. -/
theorem mem_merged (ts : List Text) (p : Text) (h : p ∈ merged ts) :
    ∃ s ∈ ts, p ∈ conjuncts s ∧ Whole p ∧ Text.trim p = p ∧ p ≠ [] := by
  obtain ⟨s, hs, hp⟩ := List.mem_flatMap.mp (List.mem_eraseDups.mp h)
  exact ⟨s, hs, hp, mem_fragments _ p hp⟩

/-- What stands behind the keyword of what is merged. -/
def joined (ts : List Text) : Text :=
  if merged ts = [] then [] else ' ' :: Text.join joint (merged ts)

theorem conjoin_cons (t : Text) (ts : List Text) : conjoin (t :: ts) =
    if merged (t :: ts) = [] then leading t
    else leading t ++ ' ' :: Text.join joint (merged (t :: ts)) := by
  rw [conjoin]
  split
  · next h => rw [if_pos (show merged (t :: ts) = [] from h), leading]
  · next ps h => rw [if_neg (show ¬ merged (t :: ts) = [] from h), leading, merged]

theorem conjoin_leading (t : Text) (ts : List Text) :
    conjoin (t :: ts) = leading t ++ joined (t :: ts) := by
  rw [conjoin_cons, joined]
  split
  · exact (List.append_nil _).symm
  · rfl

theorem leading_eq (t : Text) : ∃ w, w ≠ [] ∧ (∀ c ∈ w, Text.isName c = true) ∧
    leading t = '@' :: w := by
  have hm : ∀ c ∈ "media".toList, Text.isName c = true := List.all_eq_true.mp (by decide)
  rw [leading]
  fun_cases keyword? t with
  | case1 r h => exact ⟨"media".toList, by decide, hm, rfl⟩
  | case2 r h => exact ⟨_, h, fun c => List.mem_takeWhile_imp, rfl⟩
  | case3 => exact ⟨"media".toList, by decide, hm, rfl⟩

/-- The keyword is found again in front of anything that does not go on with its name. -/
theorem keyword_leading (t r : Text) (hr : r.head?.any Text.isName = false) :
    keyword? (leading t ++ r) = some (leading t) := by
  obtain ⟨w, hn, hw, hl⟩ := leading_eq t
  have ht : (w ++ r).takeWhile Text.isName = w := by
    rw [List.takeWhile_append_of_pos hw]
    cases r with
    | nil => simp
    | cons c r =>
      have hc : Text.isName c = false := hr
      simp [hc]
  obtain ⟨a, w, rfl⟩ := List.exists_cons_of_ne_nil hn
  rw [hl, List.cons_append, keyword?, ht]

theorem start_joined (ts : List Text) : (joined ts).head?.any Text.isName = false := by
  unfold joined
  split <;> rfl

theorem fragments_joined (ts : List Text) : fragments (joined ts) = merged ts := by
  unfold joined
  split
  · next hn => rw [hn, fragments, part]; rfl
  · next hn =>
    rw [fragments_space, fragments_join _ hn]
    intro p hp
    obtain ⟨-, -, -, hw⟩ := mem_merged ts p hp
    exact hw

theorem keyword_conjoin (t : Text) (ts : List Text) :
    keyword? (conjoin (t :: ts)) = some (leading t) := by
  rw [conjoin_leading, keyword_leading t _ (start_joined _)]

theorem afterKeyword_conjoin (t : Text) (ts : List Text) :
    afterKeyword (conjoin (t :: ts)) = joined (t :: ts) := by
  rw [afterKeyword, keyword_conjoin, Option.getD_some, conjoin_leading, List.drop_left]

theorem conjuncts_conjoin (t : Text) (ts : List Text) :
    conjuncts (conjoin (t :: ts)) = merged (t :: ts) := by
  rw [conjuncts_eq, afterKeyword_conjoin, fragments_joined]

/-! ## Merging in stages -/

theorem leading_conjoin (t : Text) (ts : List Text) : leading (conjoin (t :: ts)) = leading t := by
  rw [leading, keyword_conjoin, Option.getD_some]

theorem merged_conjoin (t : Text) (ts : List Text) :
    merged [conjoin (t :: ts)] = merged (t :: ts) := by
  rw [merged, List.flatMap_singleton, conjuncts_conjoin]
  exact Repeats.eraseDups_eraseDups _

theorem merged_append {ss ss' ts ts' : List Text} (hs : merged ss = merged ss')
    (ht : merged ts = merged ts') : merged (ss ++ ts) = merged (ss' ++ ts') := by
  rw [merged, merged, List.flatMap_append, List.flatMap_append]
  exact Repeats.eraseDups_append_congr hs ht

theorem conjoin_congr {s t : Text} {ss ts : List Text} (hl : leading s = leading t)
    (hm : merged (s :: ss) = merged (t :: ts)) : conjoin (s :: ss) = conjoin (t :: ts) := by
  rw [conjoin_cons, conjoin_cons, hl, hm]

/-- Conditions may be merged by themselves before they are merged with those around them. -/
theorem conjoin_in_stages (xs ys zs : List Text) (h : ys ≠ []) :
    conjoin (xs ++ [conjoin ys] ++ zs) = conjoin (xs ++ ys ++ zs) := by
  obtain ⟨y, ys, rfl⟩ := List.exists_cons_of_ne_nil h
  have hm : merged (xs ++ [conjoin (y :: ys)] ++ zs) = merged (xs ++ (y :: ys) ++ zs) :=
    merged_append (merged_append rfl (merged_conjoin y ys)) rfl
  cases xs with
  | nil => exact conjoin_congr (leading_conjoin y ys) hm
  | cons x xs => exact conjoin_congr rfl hm

theorem conjoin_in_stages_of_widths :
    ["(color)and (width>9px)".toList, "@media".toList, "@container (color)".toList] ≠ [] ∧
      conjoin (["@media (width>9px) and ".toList] ++
        [conjoin ["(color)and (width>9px)".toList, "@media".toList, "@container (color)".toList]] ++
          ["(hover) and (color)".toList]) =
      conjoin (["@media (width>9px) and ".toList] ++
        ["(color)and (width>9px)".toList, "@media".toList, "@container (color)".toList] ++
          ["(hover) and (color)".toList]) := by
  have hn : ["(color)and (width>9px)".toList, "@media".toList, "@container (color)".toList] ≠ [] :=
    List.cons_ne_nil _ _
  exact ⟨hn, conjoin_in_stages _ _ _ hn⟩

end NestedCss.Condition
