import NestedCss.Proofs.MergedCopies

/-!
# Conjunctions

Conditions are parted at every `and`, also at one inside parentheses, and each part is kept once. So
merging keeps the conditions that stand outside parentheses, each once, just when no part of one is
a part of another and the parts within each are joined as merging joins them.
-/

set_option autoImplicit false

namespace NestedCss.Condition

/-! ## Parentheses -/

/-- The depth of open parentheses behind a character. -/
def nest (depth : Nat) (c : Char) : Nat :=
  if c == '(' then depth + 1 else if c == ')' then depth - 1 else depth

/-- The depth behind a text. -/
def nests (depth : Nat) (t : Text) : Nat := t.foldl nest depth

/-- Whether every parenthesis that closes in the text closes one that is open. -/
def paired (depth : Nat) : Text → Bool
  | [] => true
  | c :: r => (c != ')' || depth != 0) && paired (nest depth c) r

def Balanced (t : Text) : Prop := paired 0 t = true ∧ nests 0 t = 0

instance (t : Text) : Decidable (Balanced t) := inferInstanceAs (Decidable (_ ∧ _))

theorem nests_cons (n : Nat) (c : Char) (t : Text) : nests n (c :: t) = nests (nest n c) t := rfl

theorem nests_append (n : Nat) (s t : Text) : nests n (s ++ t) = nests (nests n s) t :=
  List.foldl_append

theorem paired_append (n : Nat) (s t : Text) :
    paired n (s ++ t) = (paired n s && paired (nests n s) t) := by
  induction s generalizing n with
  | nil => simp [paired, nests]
  | cons c s ih => simp [paired, ih, nests, Bool.and_assoc]

theorem balanced_append (s t : Text) (hs : Balanced s) (ht : Balanced t) : Balanced (s ++ t) := by
  refine ⟨?_, by rw [nests_append, hs.2, ht.2]⟩
  rw [paired_append, hs.1, hs.2, ht.1]
  rfl

theorem paired_plain (n : Nat) (t : Text) (h : ∀ c ∈ t, c ≠ '(' ∧ c ≠ ')') :
    paired n t = true ∧ nests n t = n := by
  induction t with
  | nil => exact ⟨rfl, rfl⟩
  | cons c t ih =>
    obtain ⟨ho, hc⟩ := h c (by simp)
    have hn : nest n c = n := by simp [nest, ho, hc]
    obtain ⟨hp, ht⟩ := ih fun a ha => h a (by simp [ha])
    exact ⟨by simp [paired, hc, hn, hp], by rw [nests_cons, hn, ht]⟩

theorem plain_blank (c : Char) (h : Text.isBlank c = true) : c ≠ '(' ∧ c ≠ ')' := by
  constructor <;> rintro rfl <;> exact absurd h (by decide)

theorem plain_name (c : Char) (h : Text.isName c = true) : c ≠ '(' ∧ c ≠ ')' := by
  constructor <;> rintro rfl <;> exact absurd h (by decide)

theorem balanced_around (s t u : Text) (hs : ∀ c ∈ s, c ≠ '(' ∧ c ≠ ')')
    (hu : ∀ c ∈ u, c ≠ '(' ∧ c ≠ ')') (h : Balanced (s ++ (t ++ u))) : Balanced t := by
  obtain ⟨hp, hn⟩ := h
  rw [paired_append, (paired_plain 0 s hs).2, paired_append, Bool.and_eq_true, Bool.and_eq_true]
    at hp
  rw [nests_append, (paired_plain 0 s hs).2, nests_append, (paired_plain _ u hu).2] at hn
  exact ⟨hp.2.1, hn⟩

theorem balanced_trim (t : Text) (h : Balanced t) : Balanced (Text.trim t) := by
  obtain ⟨front, back, ht, hf, hb⟩ := Path.Watch.trim_split t
  rw [ht] at h
  exact balanced_around front _ back (fun c hc => plain_blank c (hf c hc))
    (fun c hc => plain_blank c (hb c hc)) h

theorem plain_leading (t : Text) : ∀ c ∈ leading t, c ≠ '(' ∧ c ≠ ')' := by
  obtain ⟨w, -, hw, hl⟩ := leading_eq t
  rw [hl]
  intro c hc
  rcases List.mem_cons.mp hc with rfl | hc
  · decide
  · exact plain_name c (hw c hc)

theorem keyword_afterKeyword (t : Text) : (keyword? t).getD [] ++ afterKeyword t = t := by
  rw [afterKeyword]
  fun_cases keyword? t with
  | case1 r h => rfl
  | case2 r h =>
    rw [Option.getD_some, List.length_cons, List.drop_succ_cons, List.cons_append]
    have hd : r.drop (r.takeWhile Text.isName).length = r.dropWhile Text.isName := by
      nth_rewrite 2 [← List.takeWhile_append_dropWhile (p := Text.isName) (l := r)]
      exact List.drop_left
    rw [hd, List.takeWhile_append_dropWhile]
  | case3 => rfl

theorem balanced_afterKeyword (t : Text) (h : Balanced t) : Balanced (afterKeyword t) := by
  have hk : ∀ c ∈ (keyword? t).getD [], c ≠ '(' ∧ c ≠ ')' := by
    have hl := plain_leading t
    rw [leading] at hl
    cases he : keyword? t with
    | none => simp
    | some k => simpa [he] using hl
  rw [← keyword_afterKeyword t, ← List.append_nil (afterKeyword t)] at h
  exact balanced_around _ _ [] hk (by simp) h

/-! ## Parts and the depth behind them -/

/-- Parts a text at every `and` that is a word by itself and stands outside parentheses. `inWord`
tells whether a word character comes before the text. -/
def partOutside (depth : Nat) (inWord : Bool) : Text → List Text
  | [] => [[]]
  | 'a' :: 'n' :: 'd' :: r =>
    if depth == 0 && !inWord && !r.head?.any Text.isWord then [] :: partOutside 0 true r
    else Text.consFirst 'a' (partOutside depth true ('n' :: 'd' :: r))
  | c :: r => Text.consFirst c (partOutside (nest depth c) (Text.isWord c) r)

/-- The conditions that a prelude joins by an `and` outside parentheses, trimmed, without those that
are empty. -/
def outerConjuncts (t : Text) : List Text :=
  ((partOutside 0 false (afterKeyword t)).map Text.trim).filter (· ≠ [])

/-- Whether a condition has its parts with one `and` between single spaces between neighbours. -/
def Jointed (c : Text) : Prop := Text.join joint (fragments c) = c

instance (c : Text) : Decidable (Jointed c) := inferInstanceAs (Decidable (_ = _))

/-- Puts parts together again, with the glue between them, as long as parentheses are open. -/
def regroup (glue : Text) (depth : Nat) : List Text → List Text
  | [] => []
  | [p] => [p]
  | p :: ps =>
    if nests depth p = 0 then p :: regroup glue 0 ps
    else weld [p ++ glue] (regroup glue (nests depth p) ps)

variable {glue : Text} {n : Nat}

theorem regroup_cons (p : Text) (ps : List Text) (h : ps ≠ []) : regroup glue n (p :: ps) =
    if nests n p = 0 then p :: regroup glue 0 ps
    else weld [p ++ glue] (regroup glue (nests n p) ps) := by
  obtain ⟨q, ps, rfl⟩ := List.exists_cons_of_ne_nil h
  rfl

theorem regroup_ne_nil (glue : Text) (n : Nat) (ps : List Text) (h : ps ≠ []) :
    regroup glue n ps ≠ [] := by
  obtain ⟨p, ps, rfl⟩ := List.exists_cons_of_ne_nil h
  by_cases hps : ps = []
  · rw [hps]
    exact List.cons_ne_nil _ _
  · rw [regroup_cons p ps hps]
    split
    · exact List.cons_ne_nil _ _
    · exact weld_ne_nil _ _ (List.cons_ne_nil _ _)

theorem regroup_weld_left (s : Text) (ps : List Text) (h : ps ≠ []) :
    regroup glue n (weld [s] ps) = weld [s] (regroup glue (nests n s) ps) := by
  obtain ⟨p, ps, rfl⟩ := List.exists_cons_of_ne_nil h
  rw [weld_singleton]
  by_cases hps : ps = []
  · rw [hps]
    rfl
  · rw [regroup_cons _ ps hps, regroup_cons _ ps hps, nests_append]
    split
    · rfl
    · rw [← weld_assoc _ _ _ (List.cons_ne_nil _ _), weld_singleton, List.append_assoc]

theorem regroup_consFirst (c : Char) (ps : List Text) (h : ps ≠ []) :
    regroup glue n (Text.consFirst c ps) = Text.consFirst c (regroup glue (nest n c) ps) := by
  rw [consFirst_weld c ps h, regroup_weld_left [c] ps h,
    consFirst_weld c _ (regroup_ne_nil _ _ ps h)]
  rfl

theorem regroup_weld_right (ps : List Text) (v : Text) (h : ps ≠ []) :
    regroup glue n (weld ps [v]) = weld (regroup glue n ps) [v] := by
  induction ps generalizing n with
  | nil => exact absurd rfl h
  | cons p ps ih =>
    by_cases hps : ps = []
    · rw [hps]
      rfl
    · rw [weld_cons p ps _ hps, regroup_cons p _ (weld_ne_nil ps _ hps), regroup_cons p ps hps]
      split
      · rw [ih hps, weld_cons p _ _ (regroup_ne_nil _ _ ps hps)]
      · rw [ih hps, weld_assoc _ _ _ (regroup_ne_nil _ _ ps hps)]

theorem part_outside_nd (r : Text) :
    partOutside n true ('n' :: 'd' :: r) =
      Text.consFirst 'n' (Text.consFirst 'd' (partOutside n true r)) := by
  have hd : Text.isWord 'd' = true := by decide
  rw [partOutside, partOutside, hd] <;> simp [nest]

/-- The parts outside parentheses are the parts put together again. -/
theorem part_outside_eq (b : Bool) (t : Text) :
    partOutside n b t = regroup ['a', 'n', 'd'] n (part b t) := by
  -- Parentheses do not matter to the parts, so the depth is free in the induction on them.
  fun_induction part b t generalizing n with
  | case1 b => rfl
  | case2 b r hw ih =>
    rw [regroup_cons _ _ (part_ne_nil true r), partOutside, show nests n [] = n from rfl]
    by_cases hn : n = 0
    · subst hn
      rw [if_pos (by simpa using hw), if_pos rfl, ih]
    · rw [if_neg (by simp [hn]), if_neg hn, part_outside_nd, ih]
      obtain ⟨v, vs, hv⟩ := List.exists_cons_of_ne_nil (regroup_ne_nil _ n _ (part_ne_nil true r))
      rw [hv]
      rfl
  | case3 b r hw ih =>
    rw [partOutside, if_neg (by simpa [Bool.and_assoc] using fun _ => by simpa using hw), ih,
      regroup_consFirst _ _ (part_ne_nil _ _)]
    rfl
  | case4 b c r hne ih =>
    rw [partOutside, ih, regroup_consFirst _ _ (part_ne_nil _ _)]
    exact hne

/-! ## What is put together is parted again -/

/-- Whether an `and` behind a part is a word by itself. -/
def EndsSolid (b : Bool) (p : Text) : Prop :=
  (p = [] ∧ b = false) ∨ ∃ s c, p = s ++ [c] ∧ Text.isWord c = false

/-- Whether each of some parts is whole where it stands, with an `and` between neighbours that is a
word by itself. -/
def Parted (b : Bool) : List Text → Prop
  | [] => False
  | [p] => part b p = [p]
  | p :: q :: ps =>
    part b p = [p] ∧ EndsSolid b p ∧ q.head?.any Text.isWord = false ∧ Parted true (q :: ps)

theorem parted_consFirst (b : Bool) (c : Char) (ps : List Text)
    (h : Parted (Text.isWord c) ps) (hw : ∀ p qs, ps = p :: qs → part b (c :: p) = [c :: p]) :
    Parted b (Text.consFirst c ps) := by
  match ps with
  | [p] => exact hw p [] rfl
  | p :: q :: qs =>
    obtain ⟨-, he, hq, hr⟩ := h
    refine ⟨hw p _ rfl, Or.inr ?_, hq, hr⟩
    rcases he with ⟨rfl, hc⟩ | ⟨s, a, rfl, ha⟩
    · exact ⟨[], c, rfl, hc⟩
    · exact ⟨c :: s, a, rfl, ha⟩

theorem part_first (b : Bool) (c : Char) (r : Text) (ps : List Text)
    (he : part b (c :: r) = Text.consFirst c ps) :
    ∀ p qs, ps = p :: qs → part b (c :: p) = [c :: p] := by
  rintro p qs rfl
  obtain ⟨p', ps', hp, -, hpp, -⟩ := part_parts b (c :: r)
  rw [he] at hp
  obtain ⟨rfl, -⟩ := List.cons.inj hp
  exact hpp

theorem parted_part (b : Bool) (t : Text) : Parted b (part b t) := by
  fun_induction part b t with
  | case1 b => rfl
  | case2 b r hw ih =>
    obtain ⟨hb, hr⟩ := Bool.and_eq_true_iff.mp hw
    obtain ⟨p, ps, hp⟩ := List.exists_cons_of_ne_nil (part_ne_nil true r)
    rw [hp] at ih ⊢
    refine ⟨rfl, Or.inl ⟨rfl, by simpa using hb⟩, ?_, ih⟩
    rw [part_true_head r p ps hp]
    simpa using hr
  | case3 b r hw ih =>
    have ha : Text.isWord 'a' = true := by decide
    have hp := (part_and_cons b r).trans (if_neg hw)
    exact parted_consFirst b 'a' _ (ha ▸ ih) (part_first b 'a' _ _ hp)
  | case4 b c r hne ih =>
    have hp := part_cons b c r fun hc x hx => hne x hc hx
    exact parted_consFirst b c _ ih (part_first b c r _ hp)

/-- A whole part is parted from what follows an `and`. -/
theorem part_and (b : Bool) (p g : Text) (hp : part b p = [p]) (he : EndsSolid b p)
    (hg : g.head?.any Text.isWord = false) :
    part b (p ++ 'a' :: 'n' :: 'd' :: g) = p :: part true g := by
  have hand : part false ('a' :: 'n' :: 'd' :: g) = [] :: part true g := by
    rw [part_and_cons, if_pos (by simp [hg])]
  rcases he with ⟨rfl, rfl⟩ | ⟨s, c, rfl, hc⟩
  · exact hand
  · have hs : part b s = [s] := by
      rw [part_append b s [c] hc, part_solid false c [] hc, part] at hp
      exact eq_singleton_of_weld _ s [c] (part_ne_nil b s) hp
    rw [List.append_assoc, List.singleton_append,
      part_append b s (c :: 'a' :: 'n' :: 'd' :: g) hc, hs,
      part_solid false c _ hc, hand]
    simp [Text.consFirst, weld]

/-- A group of parts is parted into them again, and it is the only one of them. -/
theorem regroup_parts (b : Bool) (p : Text) (ps : List Text) (h : Parted b (p :: ps)) :
    ∃ g gs, regroup ['a', 'n', 'd'] n (p :: ps) = g :: gs ∧
      part b g ++ gs.flatMap (part true) = p :: ps ∧
      regroup ['a', 'n', 'd'] n (part b g) = [g] ∧
      (b = true → p.head?.any Text.isWord = false → g.head?.any Text.isWord = false) ∧
      ∀ q ∈ gs, regroup ['a', 'n', 'd'] 0 (part true q) = [q] ∧
        q.head?.any Text.isWord = false := by
  induction ps generalizing n b p with
  | nil =>
    have hp : part b p = [p] := h
    exact ⟨p, [], rfl, by simp [hp], by rw [hp]; rfl, fun _ => id, by simp⟩
  | cons q ps ih =>
    obtain ⟨hp, he, hq, hr⟩ := h
    rw [regroup_cons p _ (List.cons_ne_nil q ps)]
    -- Either the first part is a group by itself or it leads the group that the others begin with.
    by_cases hn : nests n p = 0
    · obtain ⟨g, gs, hg, hpg, hgg, hh, hgs⟩ := ih (n := 0) true q hr
      refine ⟨p, g :: gs, by rw [if_pos hn, hg], ?_, by rw [hp]; rfl, fun _ => id, ?_⟩
      · rw [hp, List.flatMap_cons, hpg]
        rfl
      · intro a ha
        rcases List.mem_cons.mp ha with rfl | ha
        · exact ⟨hgg, hh rfl hq⟩
        · exact hgs a ha
    · obtain ⟨g, gs, hg, hpg, hgg, hh, hgs⟩ := ih (n := nests n p) true q hr
      have hpa := part_and b p g hp he (hh rfl hq)
      refine ⟨p ++ 'a' :: 'n' :: 'd' :: g, gs, ?_, ?_, ?_, ?_, hgs⟩
      · rw [if_neg hn, hg, weld_singleton]
        simp
      · rw [hpa, List.cons_append, hpg]
      · rw [hpa, regroup_cons p _ (part_ne_nil true g), if_neg hn, hgg, weld_singleton]
        simp
      · rintro rfl hph
        rcases he with ⟨-, hb⟩ | ⟨s, c, rfl, hc⟩
        · exact absurd hb (by simp)
        · cases s with
          | nil => exact hc
          | cons a s => exact hph

/-- The parts of the conditions that stand outside parentheses are all the parts. -/
theorem flatMap_part_outside (t : Text) :
    (partOutside 0 false t).flatMap (part false) = part false t := by
  obtain ⟨p, ps, hp⟩ := List.exists_cons_of_ne_nil (part_ne_nil false t)
  obtain ⟨g, gs, hg, hpg, -, -, hgs⟩ := regroup_parts (n := 0) false p ps (hp ▸ parted_part false t)
  rw [part_outside_eq, hp, hg, List.flatMap_cons, ← hpg]
  congr 1
  exact List.flatMap_congr fun q hq => (part_start true q (hgs q hq).2).symm

theorem regroup_part_outside (t q : Text) (h : q ∈ partOutside 0 false t) :
    regroup ['a', 'n', 'd'] 0 (part false q) = [q] := by
  obtain ⟨p, ps, hp⟩ := List.exists_cons_of_ne_nil (part_ne_nil false t)
  obtain ⟨g, gs, hg, -, hgg, -, hgs⟩ := regroup_parts (n := 0) false p ps (hp ▸ parted_part false t)
  rw [part_outside_eq, hp, hg] at h
  rcases List.mem_cons.mp h with rfl | h
  · exact hgg
  · rw [← part_start true q (hgs q h).2]
    exact (hgs q h).1

theorem balanced_part_outside (b : Bool) (t : Text) (hp : paired n t = true) (hn : nests n t = 0) :
    ∃ g gs, partOutside n b t = g :: gs ∧ paired n g = true ∧ nests n g = 0 ∧
      ∀ q ∈ gs, Balanced q := by
  fun_induction partOutside n b t with
  | case1 n b => exact ⟨[], [], rfl, rfl, hn, by simp⟩
  | case2 n b r hw ih =>
    have h0 : n = 0 := by simp at hw; exact hw.1.1
    subst h0
    obtain ⟨g, gs, hg, hgp, hgn, hgs⟩ := ih hp hn
    refine ⟨[], g :: gs, by rw [hg], rfl, rfl, ?_⟩
    simpa using ⟨⟨hgp, hgn⟩, hgs⟩
  | case3 n b r hw ih =>
    obtain ⟨g, gs, hg, hgp, hgn, hgs⟩ := ih hp hn
    exact ⟨'a' :: g, gs, by rw [hg]; rfl, hgp, hgn, hgs⟩
  | case4 n b c r hne ih =>
    rw [paired, Bool.and_eq_true] at hp
    obtain ⟨g, gs, hg, hgp, hgn, hgs⟩ := ih hp.2 hn
    exact ⟨c :: g, gs, by rw [hg]; rfl, by rw [paired, hp.1, hgp]; rfl, hgn, hgs⟩

/-! ## Joined parts -/

/-- Whole parts with the spaces of the joints between them. -/
def spaced : List Text → List Text
  | [] => []
  | [p] => [p]
  | p :: ps => (p ++ [' ']) :: Text.consFirst ' ' (spaced ps)

theorem spaced_ne_nil (ps : List Text) (h : ps ≠ []) : spaced ps ≠ [] := by
  match ps with
  | [p] => exact List.cons_ne_nil _ _
  | p :: q :: ps => exact List.cons_ne_nil _ _

theorem map_trim_spaced (ps : List Text) (h : ∀ p ∈ ps, Text.trim p = p) :
    (spaced ps).map Text.trim = ps := by
  induction ps with
  | nil => rfl
  | cons p ps ih =>
    have hp := h p (by simp)
    cases ps with
    | nil => simp [spaced, hp]
    | cons q ps =>
      rw [spaced, List.map_cons, map_trim_blank _ _ (by decide) (spaced_ne_nil _ (by simp)),
        Text.trim_append_blank p [' '] (by simp; decide), hp, ih fun a ha => h a (by simp [ha])]
      simp

theorem part_join_spaced (ps : List Text) (hn : ps ≠ []) (h : ∀ p ∈ ps, Whole p) :
    part false (Text.join joint ps) = spaced ps := by
  induction ps with
  | nil => exact absurd rfl hn
  | cons p ps ih =>
    have hp := h p (by simp)
    cases ps with
    | nil =>
      have hj : Text.join joint [p] = p := by simp [Text.join]
      rw [hj, hp]
      rfl
    | cons q ps =>
      rw [part_join p q ps hp, ih (by simp) fun a ha => h a (by simp [ha])]
      rfl

theorem spaced_cons (p : Text) (ps : List Text) (h : ps ≠ []) :
    spaced (p :: ps) = (p ++ [' ']) :: Text.consFirst ' ' (spaced ps) := by
  obtain ⟨q, ps, rfl⟩ := List.exists_cons_of_ne_nil h
  rfl

theorem spaced_weld (s : Text) (ps : List Text) (h : ps ≠ []) :
    spaced (weld [s] ps) = weld [s] (spaced ps) := by
  obtain ⟨p, ps, rfl⟩ := List.exists_cons_of_ne_nil h
  rw [weld_singleton]
  by_cases hps : ps = []
  · rw [hps]
    rfl
  · rw [spaced_cons _ ps hps, spaced_cons p ps hps, weld_singleton, List.append_assoc]

theorem regroup_spaced (ps : List Text) :
    regroup ['a', 'n', 'd'] n (spaced ps) = spaced (regroup joint n ps) := by
  induction ps generalizing n with
  | nil => rfl
  | cons p ps ih =>
    by_cases hps : ps = []
    · rw [hps]
      rfl
    · have hsp : nests n (p ++ [' ']) = nests n p := by
        rw [nests_append]
        rfl
      rw [spaced_cons p ps hps, regroup_cons _ _ (Text.consFirst_ne_nil ' ' _),
        regroup_cons p ps hps, hsp]
      split
      · rw [regroup_consFirst ' ' _ (spaced_ne_nil ps hps),
          spaced_cons p _ (regroup_ne_nil _ _ ps hps), ← ih (n := 0)]
        rfl
      · rw [regroup_consFirst ' ' _ (spaced_ne_nil ps hps), show nest (nests n p) ' ' = nests n p
          from rfl, ih (n := nests n p)]
        have hr := regroup_ne_nil joint (nests n p) ps hps
        rw [spaced_weld _ _ hr, consFirst_weld ' ' _ (spaced_ne_nil _ hr),
          ← weld_assoc _ _ _ (List.cons_ne_nil _ _), weld_singleton]
        simp [joint]

theorem eq_singleton_of_spaced (ps : List Text) (c : Text) (h : spaced ps = [c]) : ps = [c] := by
  match ps with
  | [p] => exact h
  | p :: q :: ps => exact absurd (List.cons.inj h).2 (Text.consFirst_ne_nil _ _)

/-! ## Groups of parts -/

theorem join_cons (p : Text) (ps : List Text) (h : ps ≠ []) :
    Text.join joint (p :: ps) = p ++ (joint ++ Text.join joint ps) := by
  obtain ⟨q, ps, rfl⟩ := List.exists_cons_of_ne_nil h
  exact Text.join_cons_cons joint p q ps

theorem join_weld (s : Text) (ps : List Text) (h : ps ≠ []) :
    Text.join joint (weld [s] ps) = s ++ Text.join joint ps := by
  obtain ⟨p, ps, rfl⟩ := List.exists_cons_of_ne_nil h
  rw [weld_singleton]
  by_cases hps : ps = []
  · simp [hps, Text.join]
  · rw [join_cons _ ps hps, join_cons p ps hps, List.append_assoc]

/-- What is put together are neighbours, joined. -/
theorem regroup_groups (ps : List Text) : ∃ gs : List (List Text),
    regroup joint n ps = gs.map (Text.join joint) ∧ gs.flatten = ps ∧ ∀ g ∈ gs, g ≠ [] := by
  induction ps generalizing n with
  | nil => exact ⟨[], rfl, rfl, by simp⟩
  | cons p ps ih =>
    by_cases hps : ps = []
    · exact ⟨[[p]], by simp [hps, regroup, Text.join], by simp [hps], by simp⟩
    · rw [regroup_cons p ps hps]
      split
      · obtain ⟨gs, hg, hf, hn⟩ := ih (n := 0)
        exact ⟨[p] :: gs, by simp [hg, Text.join], by simp [hf], by simpa using hn⟩
      · obtain ⟨gs, hg, hf, hn⟩ := ih (n := nests n p)
        cases gs with
        | nil => exact absurd hf.symm hps
        | cons g gs =>
          have hgn := hn g (by simp)
          refine ⟨(p :: g) :: gs, ?_, by simpa using hf, ?_⟩
          · rw [hg, List.map_cons, List.map_cons, weld_singleton, join_cons p g hgn,
              List.append_assoc]
          · simpa using fun q hq => hn q (by simp [hq])

theorem join_regroup (ps : List Text) :
    Text.join joint (regroup joint n ps) = Text.join joint ps := by
  induction ps generalizing n with
  | nil => rfl
  | cons p ps ih =>
    by_cases hps : ps = []
    · rw [hps]
      rfl
    · rw [regroup_cons p ps hps, join_cons p ps hps]
      split
      · rw [join_cons p _ (regroup_ne_nil _ _ ps hps), ih]
      · rw [join_weld _ _ (regroup_ne_nil _ _ ps hps), ih, List.append_assoc]

theorem mem_regroup (ps : List Text) (h : ∀ p ∈ ps, Whole p ∧ Text.trim p = p ∧ p ≠ []) :
    ∀ c ∈ regroup joint n ps, Text.trim c = c ∧ c ≠ [] ∧ Jointed c := by
  obtain ⟨gs, hg, hf, hn⟩ := regroup_groups (n := n) ps
  intro c hc
  rw [hg] at hc
  obtain ⟨g, hgs, rfl⟩ := List.mem_map.mp hc
  have hp : ∀ p ∈ g, Whole p ∧ Text.trim p = p ∧ p ≠ [] := fun p hp =>
    h p (hf ▸ List.mem_flatten.mpr ⟨g, hgs, hp⟩)
  exact ⟨trim_join g fun p hm => (hp p hm).2, join_ne_nil g (hn g hgs) fun p hm => (hp p hm).2.2,
    by rw [Jointed, fragments_join g (hn g hgs) hp]⟩

theorem fragments_regroup (ps : List Text) (h : ∀ p ∈ ps, Whole p ∧ Text.trim p = p ∧ p ≠ []) :
    (regroup joint n ps).flatMap fragments = ps := by
  obtain ⟨gs, hg, hf, hn⟩ := regroup_groups (n := n) ps
  rw [hg, List.flatMap_map, List.flatMap_congr fun g hgs => fragments_join g (hn g hgs) fun p hp =>
    h p (hf ▸ List.mem_flatten.mpr ⟨g, hgs, hp⟩)]
  simpa using hf

/-- Parts that make up one condition stay together in front of others. -/
theorem regroup_append (ps qs : List Text) (c : Text) (h : regroup joint n ps = [c])
    (hc : nests n c = 0) : regroup joint n (ps ++ qs) = c :: regroup joint 0 qs := by
  induction ps generalizing n c with
  | nil => exact absurd h (by simp [regroup])
  | cons p ps ih =>
    by_cases hps : ps = []
    · subst hps
      obtain rfl : p = c := List.singleton_inj.mp h
      by_cases hqs : qs = []
      · rw [hqs]
        rfl
      · rw [List.singleton_append, regroup_cons p qs hqs, if_pos hc]
    · rw [regroup_cons p ps hps] at h
      split at h
      · exact absurd (List.cons.inj h).2 (regroup_ne_nil _ _ ps hps)
      · next hn =>
        obtain ⟨d, ds, hd⟩ := List.exists_cons_of_ne_nil
          (regroup_ne_nil joint (nests n p) ps hps)
        rw [hd, weld_singleton] at h
        obtain ⟨rfl, rfl⟩ := List.cons.inj h
        have hj : nests (nests n p) d = 0 := by
          rwa [nests_append, nests_append, (paired_plain _ joint (by decide)).2] at hc
        rw [List.cons_append, regroup_cons p _ (by simp [hps]), if_neg hn, ih d hd hj,
          weld_singleton]

theorem regroup_flatMap (cs : List Text)
    (h : ∀ c ∈ cs, regroup joint 0 (fragments c) = [c] ∧ nests 0 c = 0) :
    regroup joint 0 (cs.flatMap fragments) = cs := by
  induction cs with
  | nil => rfl
  | cons c cs ih =>
    obtain ⟨hg, hn⟩ := h c (by simp)
    rw [List.flatMap_cons, regroup_append _ _ c hg hn, ih fun d hd => h d (by simp [hd])]

/-! ## The conditions of a prelude -/

/-- Blanks around a condition do not matter to its parts. -/
theorem fragments_trim (c : Text) : fragments (Text.trim c) = fragments c := by
  obtain ⟨front, back, -, hf, hb, hp⟩ := part_trim c
  obtain ⟨p, ps, hps⟩ := List.exists_cons_of_ne_nil (part_ne_nil false (Text.trim c))
  have hr : (weld (p :: ps) [back]).map Text.trim = (p :: ps).map Text.trim := by
    clear hps hp
    induction ps generalizing p with
    | nil => simp [weld, Text.trim_append_blank p back hb]
    | cons q ps ih => simpa [weld] using ih q
  have hl : (weld [front] (weld (p :: ps) [back])).map Text.trim =
      (weld (p :: ps) [back]).map Text.trim := by
    obtain ⟨v, vs, hv⟩ := List.exists_cons_of_ne_nil (weld_ne_nil (p :: ps) [back] (by simp))
    rw [hv, weld_singleton, List.map_cons, List.map_cons, trim_blank_append front v hf]
  rw [fragments, fragments, hp, hps, hl, hr]

theorem fragments_outer (t : Text) : (outerConjuncts t).flatMap fragments = conjuncts t := by
  have hf : ∀ qs : List Text, ((qs.map Text.trim).filter (· ≠ [])).flatMap fragments =
      qs.flatMap fragments := by
    intro qs
    induction qs with
    | nil => rfl
    | cons q qs ih =>
      have hq := fragments_trim q
      by_cases hn : Text.trim q = []
      · have hz : fragments q = [] := by
          rw [← hq, hn]
          rfl
        simpa [hn, hz] using ih
      · simpa [hn, hq] using ih
  rw [outerConjuncts, hf, conjuncts_eq, fragments, ← flatMap_part_outside, List.map_flatMap,
    List.filter_flatMap]
  rfl

theorem merged_outer (ts : List Text) :
    merged ts = ((ts.flatMap outerConjuncts).flatMap fragments).eraseDups := by
  rw [merged, List.flatMap_assoc]
  congr 1
  exact List.flatMap_congr fun t _ => (fragments_outer t).symm

theorem regroup_trim (q : Text) (h : regroup ['a', 'n', 'd'] 0 (part false q) = [q]) :
    regroup ['a', 'n', 'd'] 0 (part false (Text.trim q)) = [Text.trim q] := by
  obtain ⟨front, back, hq, hf, -, hp⟩ := part_trim q
  have hn := part_ne_nil false (Text.trim q)
  have hr := regroup_ne_nil ['a', 'n', 'd'] 0 _ hn
  have h0 : nests 0 front = 0 := (paired_plain 0 front fun c hc => plain_blank c (hf c hc)).2
  rw [hp, regroup_weld_left _ _ (weld_ne_nil _ _ hn), h0, regroup_weld_right _ _ hn] at h
  nth_rewrite 2 [hq] at h
  exact eq_singleton_of_weld _ _ back hr
    (eq_singleton_of_weld_left _ front _ (weld_ne_nil _ _ hr) h)

/-- The parts of a condition that joins them evenly are put together to it. -/
theorem regroup_fragments (c : Text) (hj : Jointed c) (hn : c ≠ [])
    (h : regroup ['a', 'n', 'd'] 0 (part false c) = [c]) :
    regroup joint 0 (fragments c) = [c] := by
  have hf : fragments c ≠ [] := by
    intro hf
    rw [Jointed, hf] at hj
    exact hn hj.symm
  have hp : part false c = spaced (fragments c) := by
    nth_rewrite 1 [← hj]
    exact part_join_spaced _ hf fun p hp => (mem_fragments c p hp).1
  rw [hp, regroup_spaced] at h
  exact eq_singleton_of_spaced _ c h

theorem mem_outer (t c : Text) (h : c ∈ outerConjuncts t) (hb : Balanced t) :
    c ≠ [] ∧ Balanced c ∧ regroup ['a', 'n', 'd'] 0 (part false c) = [c] := by
  simp only [outerConjuncts, List.mem_filter, List.mem_map, decide_eq_true_eq] at h
  obtain ⟨⟨q, hq, rfl⟩, hn⟩ := h
  obtain ⟨hp, ha⟩ := balanced_afterKeyword t hb
  have hbq : Balanced q := by
    obtain ⟨g, gs, hg, hgp, hgn, hgs⟩ := balanced_part_outside false _ hp ha
    rw [hg] at hq
    rcases List.mem_cons.mp hq with rfl | hq
    · exact ⟨hgp, hgn⟩
    · exact hgs q hq
  exact ⟨hn, balanced_trim q hbq, regroup_trim q (regroup_part_outside _ q hq)⟩

/-! ## The conditions of what is merged -/

theorem outer_conjoin (t : Text) (ts : List Text) :
    outerConjuncts (conjoin (t :: ts)) = regroup joint 0 (merged (t :: ts)) := by
  have hm : ∀ p ∈ merged (t :: ts), Whole p ∧ Text.trim p = p ∧ p ≠ [] := by
    intro p hp
    obtain ⟨-, -, -, hw⟩ := mem_merged _ p hp
    exact hw
  rw [outerConjuncts, afterKeyword_conjoin, joined]
  split
  · next hn =>
    rw [hn]
    rfl
  · next hn =>
    have hr := regroup_ne_nil joint 0 _ hn
    have hg := mem_regroup (n := 0) _ hm
    rw [part_outside_eq, part_solid _ ' ' _ (by decide),
      part_join_spaced _ hn fun p hp => (hm p hp).1,
      regroup_consFirst ' ' _ (spaced_ne_nil _ hn), show nest 0 ' ' = 0 from rfl, regroup_spaced,
      map_trim_blank ' ' _ (by decide) (spaced_ne_nil _ hr),
      map_trim_spaced _ fun c hc => (hg c hc).1]
    exact List.filter_eq_self.mpr fun c hc => by simpa using (hg c hc).2.1

theorem balanced_join (cs : List Text) (h : ∀ c ∈ cs, Balanced c) :
    Balanced (Text.join joint cs) := by
  induction cs with
  | nil => exact ⟨rfl, rfl⟩
  | cons c cs ih =>
    have hc := h c (by simp)
    by_cases hn : cs = []
    · simpa [hn, Text.join] using hc
    · rw [join_cons c cs hn]
      exact balanced_append _ _ hc
        (balanced_append _ _ (by decide) (ih fun d hd => h d (by simp [hd])))

/-- Conditions whose parts are joined evenly, with no part twice in those that differ. -/
def Separable (cs : List Text) : Prop :=
  (∀ c ∈ cs, Jointed c) ∧ (cs.eraseDups.flatMap fragments).Nodup

instance (cs : List Text) : Decidable (Separable cs) := inferInstanceAs (Decidable (_ ∧ _))

/-- The conditions of what is merged are those that were merged, each where it first stands, when
and only when they are separable, and then its parentheses are balanced. -/
theorem conjunction_kept_iff (t : Text) (ts : List Text) (h : ∀ s ∈ t :: ts, Balanced s) :
    (outerConjuncts (conjoin (t :: ts)) = ((t :: ts).flatMap outerConjuncts).eraseDups ↔
      Separable ((t :: ts).flatMap outerConjuncts)) ∧
    (Separable ((t :: ts).flatMap outerConjuncts) → Balanced (conjoin (t :: ts))) := by
  have hc : ∀ c ∈ (t :: ts).flatMap outerConjuncts,
      c ≠ [] ∧ Balanced c ∧ regroup ['a', 'n', 'd'] 0 (part false c) = [c] := by
    intro c hc
    obtain ⟨s, hs, hcs⟩ := List.mem_flatMap.mp hc
    exact mem_outer s c hcs (h s hs)
  have hm : ∀ p ∈ merged (t :: ts), Whole p ∧ Text.trim p = p ∧ p ≠ [] := by
    intro p hp
    obtain ⟨-, -, -, hw⟩ := mem_merged _ p hp
    exact hw
  have ho := merged_outer (t :: ts)
  generalize (t :: ts).flatMap outerConjuncts = cs at hc ho ⊢
  -- Without a shared part, each of the conditions still has all its parts beside one another.
  have hkept : Separable cs → regroup joint 0 (merged (t :: ts)) = cs.eraseDups := by
    rintro ⟨hj, hd⟩
    rw [ho, Repeats.eraseDups_flatMap _ _ hd]
    refine regroup_flatMap _ fun c hce => ?_
    have hcs := List.mem_eraseDups.mp hce
    obtain ⟨hn, hb, hg⟩ := hc c hcs
    exact ⟨regroup_fragments c (hj c hcs) hn hg, hb.2⟩
  refine ⟨⟨fun hk => ?_, fun hs => (outer_conjoin t ts).trans (hkept hs)⟩, fun hs => ?_⟩
  · rw [outer_conjoin] at hk
    refine ⟨fun c hcs => (mem_regroup _ hm c (hk ▸ List.mem_eraseDups.mpr hcs)).2.2, ?_⟩
    rw [← hk, fragments_regroup _ hm, merged]
    exact Repeats.nodup_eraseDups _
  · have hb : Balanced (Text.join joint (merged (t :: ts))) := by
      rw [← join_regroup (n := 0), hkept hs]
      exact balanced_join _ fun c hce => (hc c (List.mem_eraseDups.mp hce)).2.1
    have hl : Balanced (leading t) := paired_plain 0 _ (plain_leading t)
    rw [conjoin_cons]
    split
    · exact hl
    · exact balanced_append _ _ hl (balanced_append [' '] _ (by decide) hb)

/-- A part that two conditions share is dropped from the second, and its parenthesis stays open. -/
theorem shared_part_breaks_condition :
    (∀ s ∈ ["@media ((color) and (hover))".toList, "@media ((grid) and (hover))".toList],
      keyword? s = some "@media".toList ∧ Balanced s ∧ ∀ c ∈ Mark.quotes, c ∉ s) ∧
    outerConjuncts (conjoin
        ["@media ((color) and (hover))".toList, "@media ((grid) and (hover))".toList]) ≠
      (["@media ((color) and (hover))".toList, "@media ((grid) and (hover))".toList].flatMap
        outerConjuncts).eraseDups ∧
    ¬ Balanced (conjoin
      ["@media ((color) and (hover))".toList, "@media ((grid) and (hover))".toList]) := by
  decide +kernel

theorem conjunction_kept_of_widths :
    (∀ s ∈ ["@media ((color) and (hover))and(width>9px)".toList,
      "@media (width>9px) and  (grid)".toList, "@media ((color) and (hover))".toList],
      Balanced s) ∧
    outerConjuncts (conjoin ["@media ((color) and (hover))and(width>9px)".toList,
      "@media (width>9px) and  (grid)".toList, "@media ((color) and (hover))".toList]) =
      (["@media ((color) and (hover))and(width>9px)".toList,
        "@media (width>9px) and  (grid)".toList, "@media ((color) and (hover))".toList].flatMap
          outerConjuncts).eraseDups ∧
    Balanced (conjoin ["@media ((color) and (hover))and(width>9px)".toList,
      "@media (width>9px) and  (grid)".toList, "@media ((color) and (hover))".toList]) := by
  have h : ∀ s ∈ ["@media ((color) and (hover))and(width>9px)".toList,
      "@media (width>9px) and  (grid)".toList, "@media ((color) and (hover))".toList],
      Balanced s := by decide
  have hs : Separable (["@media ((color) and (hover))and(width>9px)".toList,
      "@media (width>9px) and  (grid)".toList, "@media ((color) and (hover))".toList].flatMap
        outerConjuncts) := by decide +kernel
  obtain ⟨hk, hb⟩ := conjunction_kept_iff _ _ h
  exact ⟨h, hk.mpr hs, hb hs⟩

end NestedCss.Condition
