import NestedCss.Proofs.Namespaces
import NestedCss.Proofs.ReplacedSheets
import NestedCss.Proofs.Stability
import NestedCss.Proofs.Templates

/-!
# Substitution of the scope

Css depends on its scope by substitution: where the identifiers of two classes are foreign to a
source, replacing the one by the other turns the css under the one class into the css under the
other, rule by rule. An identifier is foreign when it occurs in no text that comes up on the way
with the scope left open, so that it stands in the css just where the scope does.
-/

set_option autoImplicit false

namespace NestedCss

namespace Condition
open Text

variable {w : Text}

theorem not_infix_join (hw : IsWordText w) (hj : ¬ w <:+: joint) (ps : List Text)
    (h : ∀ p ∈ ps, ¬ w <:+: p) : ¬ w <:+: Text.join joint ps := by
  induction ps with
  | nil =>
    intro hi
    exact hw.1 (List.infix_nil.mp hi)
  | cons p ps ih =>
    have hi := ih fun q hq => h q (by simp [hq])
    cases ps with
    | nil => simpa [Text.join] using h p (by simp)
    | cons q ps =>
      intro hin
      rw [join_joint] at hin
      rcases infix_beside hw p ' ' _ (by decide) hin with hin | hin
      · exact h p (by simp) hin
      · rcases infix_beside hw ['a', 'n', 'd'] ' ' _ (by decide) hin with hin | hin
        · exact hj (hin.trans ⟨[' '], [' '], rfl⟩)
        · exact hi hin

/-- A word that stands in none of some conditions and not between them stands not in what they are
joined to. -/
theorem not_infix_conjoin (hw : IsWordText w) (hj : ¬ w <:+: joint) (ts : List Text)
    (hc : ∀ t ∈ ts, Prelude.isCondition t = true) (h : ∀ t ∈ ts, ¬ w <:+: t) :
    ¬ w <:+: conjoin ts := by
  cases ts with
  | nil =>
    intro hi
    exact hw.1 (List.infix_nil.mp hi)
  | cons t ts =>
    have hl : ¬ w <:+: leading t := fun hi =>
      h t (by simp) (hi.trans (infix_leading t (hc t (by simp))))
    have hm : ∀ p ∈ merged (t :: ts), ¬ w <:+: p := by
      intro p hp hi
      obtain ⟨s, hs, hps, -⟩ := mem_merged _ p hp
      exact h s hs (hi.trans (infix_conjuncts s p hps))
    rw [conjoin_cons]
    split
    · exact hl
    · intro hi
      rcases infix_beside hw _ ' ' _ (by decide) hi with hi | hi
      · exact hl hi
      · exact not_infix_join hw hj _ hm hi

end Condition

namespace Substitution
open Text NestedCss.Path Scan Filing Containment Prelude

/-- The names that are declared by the keyframes headers above declarations. -/
def namesDeclared (ts : List Statement) : List Text :=
  (located [] ts).filterMap fun p =>
    (innermostKeyframes p.2).bind fun found => keyframesName found.1

/-- Whether an identifier is a word that stands in no text on the way from some statements to css,
the scope left open. -/
structure Foreign (id : Text) (ts : List Statement) : Prop where
  word : IsWordText id
  statements : ∀ s ∈ ts, ¬ id <:+: s.text
  templates : ∀ before ∈ ts.inits, ¬ id <:+: template (openPreludes before)
  names : ∀ n ∈ namesDeclared ts, ¬ id <:+: '_' :: n
  joint : ¬ id <:+: Condition.joint

instance (id : Text) (ts : List Statement) : Decidable (Foreign id ts) :=
  decidable_of_iff (IsWordText id ∧ (∀ s ∈ ts, ¬ id <:+: s.text) ∧
      (∀ before ∈ ts.inits, ¬ id <:+: template (openPreludes before)) ∧
      (∀ n ∈ namesDeclared ts, ¬ id <:+: '_' :: n) ∧ ¬ id <:+: Condition.joint)
    ⟨fun ⟨h₁, h₂, h₃, h₄, h₅⟩ => ⟨h₁, h₂, h₃, h₄, h₅⟩,
      fun ⟨h₁, h₂, h₃, h₄, h₅⟩ => ⟨h₁, h₂, h₃, h₄, h₅⟩⟩

variable {a b : Text}

theorem isClass_of_word (ha : IsWordText a) : IsClass ('.' :: a) := by
  obtain ⟨c, w, rfl⟩ := List.exists_cons_of_ne_nil ha.1
  exact ⟨c, w, rfl, ha.2⟩

/-! ## Keys -/

/-- Where the scope is put for `&` its identifier is replaced by another's. -/
theorem replaceAll_putParent (ha : IsWordText a) (b t : Text) (ht : ¬ a <:+: t) :
    replaceAll a b (putParent ('.' :: a) t) = putParent ('.' :: b) t := by
  induction t using run_induction isWord with
  | nil => rfl
  | other c t hc ih =>
    have hi := ih fun hi => ht (hi.trans (List.suffix_cons c t).isInfix)
    by_cases hamp : c = '&'
    · subst hamp
      rw [putParent_parent, putParent_parent, List.cons_append, List.cons_append,
        replaceAll_nonword ha b '.' _ (by decide), replaceAll_prefix a b _ ha.1, hi]
    · rw [putParent_cons _ t c hamp, putParent_cons _ t c hamp, replaceAll_nonword ha b c _ hc, hi]
  | run w t hn hw htw ih =>
    have hi := ih fun hi => ht (hi.trans (List.suffix_append w t).isInfix)
    have hamp : '&' ∉ w := fun hm => absurd (hw '&' hm) (by decide)
    have hp : Parted w (putParent ('.' :: a) t) := by
      refine Or.inr fun c hc => ?_
      cases t with
      | nil => simp [putParent] at hc
      | cons d t =>
        have hd := htw d rfl
        by_cases hda : d = '&'
        · subst hda
          obtain rfl : '.' = c := by simpa [putParent_parent] using hc
          decide
        · obtain rfl : d = c := by simpa [putParent_cons _ t d hda] using hc
          exact hd
    rw [putParent_append, putParent_append, putParent_of_not_mem _ w hamp,
      putParent_of_not_mem _ w hamp, replaceAll_append ha b _ _ hp, hi,
      replaceAll_absent a b w fun hi => ht (hi.trans (List.prefix_append w t).isInfix)]

/-- Where no prelude holds its identifier the scope leads none. -/
theorem pathStack_foreign (ps : List Text) (h : ∀ t ∈ ps, ¬ a <:+: t) :
    pathStack ('.' :: a) ps = ('.' :: a) :: ps := by
  induction ps using List.reverseRecOn with
  | nil => rfl
  | append_singleton ps t ih =>
    have ht : Scope.anchor ('.' :: a) (pathStack ('.' :: a) ps) t = t := by
      rw [Scope.anchor]
      split
      · rfl
      · refine Scope.anchorList_eq_self t fun e he => ?_
        by_contra hn
        obtain ⟨r, hr⟩ := Option.ne_none_iff_exists'.mp hn
        have hae : a <:+: e := ⟨['.'], r, (Scope.after?_eq _ e r hr).symm⟩
        exact h t (by simp) (hae.trans (infix_entry t e he))
    rw [path_stack_concat, ht, ih fun s hs => h s (by simp [hs])]
    rfl

theorem innermost_scope (ha : IsWordText a) (ps : List Text) :
    innermostKeyframes (('.' :: a) :: ps) = innermostKeyframes ps := by
  rw [innermostKeyframes]
  cases innermostKeyframes ps with
  | some found => rfl
  | none => simp [kind_class (isClass_of_word ha)]

theorem key_keyframes_foreign (ha : IsWordText a) (ps : List Text) (h : ∀ t ∈ ps, ¬ a <:+: t)
    (header : Text) (above : List Text) (hi : innermostKeyframes ps = some (header, above)) :
    pathKey ('.' :: a) ps = ⟨header, template ps⟩ := by
  simp only [pathKey, pathStack_foreign ps h, Key.ofStack, innermost_scope ha, hi, template]

theorem key_plain_foreign (ha : IsWordText a) (ps : List Text) (h : ∀ t ∈ ps, ¬ a <:+: t)
    (hi : innermostKeyframes ps = none) : pathKey ('.' :: a) ps =
      ⟨Condition.conjoin (ofKind .condition ps), putParent ('.' :: a) (template ps)⟩ := by
  have hc := isClass_of_word ha
  have hcs : ofKind .condition (('.' :: a) :: ps) = ofKind .condition ps := by
    rw [ofKind, List.filter_cons, kind_class hc]
    rfl
  have hss : ofKind .selector (('.' :: a) :: ps) = ('.' :: a) :: ofKind .selector ps := by
    rw [ofKind, List.filter_cons, kind_class hc]
    rfl
  have hf := foldl_putParent hc ['&'] (ofKind .selector ps)
  rw [putParent_parent, putParent, List.flatMap_nil, List.append_nil] at hf
  simp only [pathKey, pathStack_foreign ps h, Key.ofStack, innermost_scope ha, hi, hcs, hss,
    compose, hf, template]

/-- The group of a key is foreign where the preludes are. -/
theorem group_foreign (ha : IsWordText a) (hj : ¬ a <:+: Condition.joint) (ps : List Text)
    (h : ∀ t ∈ ps, ¬ a <:+: t) : ¬ a <:+: (pathKey ('.' :: a) ps).group := by
  match hi : innermostKeyframes ps with
  | some (header, above) =>
    obtain ⟨-, -, below, rfl⟩ := innermost_keyframes_some ps above header hi
    rw [key_keyframes_foreign ha _ h header above hi]
    exact h header (by simp)
  | none =>
    rw [key_plain_foreign ha ps h hi]
    refine Condition.not_infix_conjoin ha hj _ (fun t ht => ?_) fun t ht =>
      h t (List.mem_of_mem_filter ht)
    exact Condition.isCondition_of_kind t (kind_ofKind .condition ps t ht)

/-- The key of a path under one class is that under the other with the identifiers replaced. -/
theorem key_replaced (ha : IsWordText a) (hb : IsWordText b) (hj : ¬ a <:+: Condition.joint)
    (ps : List Text) (h : ∀ t ∈ ps, ¬ a <:+: t ∧ ¬ b <:+: t) (ht : ¬ a <:+: template ps) :
    pathKey ('.' :: b) ps = (pathKey ('.' :: a) ps).replaced a b := by
  have hpa := fun t hm => (h t hm).1
  have hpb := fun t hm => (h t hm).2
  have hg := replaceAll_absent a b _ (group_foreign ha hj ps hpa)
  match hi : innermostKeyframes ps with
  | some (header, above) =>
    have hk := key_keyframes_foreign ha ps hpa header above hi
    rw [Key.replaced, hg, hk, key_keyframes_foreign hb ps hpb header above hi,
      replaceAll_absent a b _ ht]
  | none =>
    have hk := key_plain_foreign ha ps hpa hi
    rw [Key.replaced, hg, hk, key_plain_foreign hb ps hpb hi, replaceAll_putParent ha b _ ht]

/-! ## Ledgers -/

variable {ts : List Statement}

theorem Foreign.prelude (h : Foreign a ts) (before : List Statement) (hb : before ∈ ts.inits) :
    ∀ t ∈ openPreludes before, ¬ a <:+: t := by
  intro t ht
  obtain ⟨line, hl⟩ := mem_lookBack 0 _ t ht
  exact h.statements _ (((List.mem_inits _ _).mp hb).mem (List.mem_reverse.mp hl))

theorem keyAfter_replaced (h₁ : Foreign a ts) (h₂ : Foreign b ts) (before : List Statement)
    (hm : before ∈ ts.inits) :
    keyAfter ('.' :: b) before = (keyAfter ('.' :: a) before).replaced a b :=
  key_replaced h₁.word h₂.word h₁.joint (openPreludes before)
    (fun t ht => ⟨h₁.prelude before hm t ht, h₂.prelude before hm t ht⟩) (h₁.templates before hm)

/-- Replacing the identifier in a key is undone by replacing it back. -/
theorem keyAfter_back (h₁ : Foreign a ts) (h₂ : Foreign b ts) (before : List Statement)
    (hm : before ∈ ts.inits) : ((keyAfter ('.' :: a) before).replaced a b).replaced b a =
      keyAfter ('.' :: a) before := by
  rw [← keyAfter_replaced h₁ h₂ before hm, ← keyAfter_replaced h₂ h₁ before hm]

theorem reached_replaced (h₁ : Foreign a ts) (h₂ : Foreign b ts) :
    reached ('.' :: b) ts = (reached ('.' :: a) ts).map (Key.replaced a b) := by
  have hk : ts.inits.map (keyAfter ('.' :: b)) =
      (ts.inits.map (keyAfter ('.' :: a))).map (Key.replaced a b) := by
    rw [List.map_map]
    exact List.map_congr_left fun before hm => keyAfter_replaced h₁ h₂ before hm
  rw [reached, reached, hk]
  refine Repeats.eraseDups_map _ (Key.replaced b a) _ fun k hk => ?_
  obtain ⟨before, hm, rfl⟩ := List.mem_map.mp hk
  exact keyAfter_back h₁ h₂ before hm

/-- The path of each declaration is that of a place. -/
theorem exists_place (p : Declaration × List Text) (hp : p ∈ located [] ts) :
    ∃ before ∈ ts.inits, ∀ scope, pathKey scope p.2 = keyAfter scope before := by
  obtain ⟨us, hu, he⟩ := mem_located [] ts p hp
  exact ⟨us, (List.mem_inits _ _).mpr hu, fun scope => by rw [he]; rfl⟩

theorem lines_replaced (h₁ : Foreign a ts) (h₂ : Foreign b ts) (k : Key)
    (hk : k ∈ reached ('.' :: a) ts) :
    linesUnder ('.' :: b) ts (k.replaced a b) = linesUnder ('.' :: a) ts k := by
  obtain ⟨place, hm, rfl⟩ := List.mem_map.mp (List.mem_eraseDups.mp hk)
  rw [linesUnder, linesUnder]
  congr 1
  refine List.filter_congr fun p hp => ?_
  obtain ⟨before, hb, hpk⟩ := exists_place p hp
  rw [hpk, hpk, keyAfter_replaced h₁ h₂ before hb, decide_eq_decide]
  refine ⟨fun he => ?_, congrArg _⟩
  rw [← keyAfter_back h₁ h₂ before hb, he, keyAfter_back h₁ h₂ place hm]

/-- In declarations of the source there is nothing to replace. -/
theorem declarations_replaced (h : Foreign a ts) (b : Text) (ds : List Declaration)
    (hd : ∀ d ∈ ds, .declaration d ∈ ts) : ds.map (Declaration.replaced a b) = ds := by
  refine (List.map_congr_left fun d hm => ?_).trans (List.map_id ds)
  exact congrArg (Declaration.mk · d.line)
    (replaceAll_absent a b d.text (h.statements _ (hd d hm)))

/-- The rules of one ledger are those of the other with the identifiers replaced. -/
theorem filled_replaced (h₁ : Foreign a ts) (h₂ : Foreign b ts) :
    (ledger ('.' :: b) ts).filled = (ledger ('.' :: a) ts).filled.map (Rule.replaced a b) := by
  have hr : (ledger ('.' :: b) ts).rules =
      (ledger ('.' :: a) ts).rules.map (Rule.replaced a b) := by
    rw [Book.rules, Book.rules, ledger, ledger, reached_replaced h₁ h₂, List.map_map, List.map_map,
      List.map_map, List.map_map]
    refine List.map_congr_left fun k hk => ?_
    have hl := declarations_replaced h₁ b (linesUnder ('.' :: a) ts k) fun d hd => by
      obtain ⟨p, hp, rfl⟩ := List.mem_map.mp hd
      exact mem_located_declaration [] ts p (List.mem_of_mem_filter hp)
    simp only [Function.comp_apply, Rule.replaced, lines_replaced h₁ h₂ k hk, hl]
    rfl
  rw [Book.filled, hr, List.filter_map]
  congr 1
  exact List.filter_congr fun r _ => by simp [Rule.replaced]

theorem group_filled (h : Foreign a ts) (r : Rule) (hr : r ∈ (ledger ('.' :: a) ts).filled) :
    ¬ a <:+: r.group := by
  obtain ⟨p, hp, hk⟩ := mem_filled_ledger _ ts r hr
  obtain ⟨before, hm, hpk⟩ := exists_place p hp
  have hg := group_foreign h.word h.joint (openPreludes before) (h.prelude before hm)
  rw [← keyAfter, ← hpk, hk] at hg
  exact hg

theorem name_filled (h : Foreign a ts) (r : Rule) (hr : r ∈ (ledger ('.' :: a) ts).filled)
    (n : Text) (hn : keyframesName r.group = some n) : n ∈ namesDeclared ts := by
  obtain ⟨p, hp, hk⟩ := mem_filled_ledger _ ts r hr
  have hps : ∀ t ∈ p.2, ¬ a <:+: t := by
    intro t ht
    obtain ⟨line, hl⟩ := mem_path ts p t hp ht
    exact h.statements _ hl
  refine List.mem_filterMap.mpr ⟨p, hp, ?_⟩
  match hi : innermostKeyframes p.2 with
  | some (header, above) =>
    rw [key_keyframes_foreign h.word p.2 hps header above hi] at hk
    rw [← (Key.mk.inj hk).1] at hn
    exact hn
  | none =>
    exfalso
    rw [key_plain_foreign h.word p.2 hps hi] at hk
    have hc := kind_conjoin _ (kind_ofKind .condition p.2)
    rw [(Key.mk.inj hk).1, kind_of_keyframesName r.group n hn] at hc
    split at hc <;> simp at hc

/-! ## Renaming -/

/-- In a header that is named after the scope the identifier is replaced by another's. -/
theorem renameGroup_replaced (ha : IsWordText a) (b group : Text) (hg : ¬ a <:+: group)
    (hn : ∀ n, keyframesName group = some n → ¬ a <:+: '_' :: n) :
    Animation.renameGroup (b ++ ['_'] ++ ·) group =
      replaceAll a b (Animation.renameGroup (a ++ ['_'] ++ ·) group) := by
  rw [Animation.renameGroup, Animation.renameGroup]
  cases ht : Header.of? group with
  | none => exact (replaceAll_absent a b group hg).symm
  | some h =>
    obtain ⟨keyword, blanks, hs⟩ := Header.sound_of? group h ht
    have htext : h.lead ++ (h.name ++ h.tail) = group := by
      rw [← List.append_assoc]
      exact Header.text_of? group h ht
    have hl : ¬ a <:+: h.lead := fun hi =>
      hg (hi.trans (htext ▸ (List.prefix_append _ _).isInfix))
    have htl : ¬ a <:+: h.tail := fun hi =>
      hg (hi.trans (htext ▸ ((List.suffix_append _ _).trans (List.suffix_append _ _)).isInfix))
    have hlast : ∀ t, Parted h.lead t := by
      obtain ⟨v, c, hv⟩ := (List.eq_nil_or_concat blanks).resolve_left hs.blanks_ne_nil
      rw [List.concat_eq_append] at hv
      have hc := Condition.isWord_blank c (hs.blank c (by simp [hv]))
      rw [hs.lead_eq, hv, ← List.append_assoc]
      exact fun t => parted_concat _ c t hc
    have htail : Parted ('_' :: h.name) h.tail := by
      refine Or.inr fun c hc => ?_
      have he := hs.tail_ends c hc
      by_contra hw
      rw [Namespaces.endsName_word c (by simpa using hw)] at he
      exact Bool.noConfusion he
    have hnamed : ∀ u : Text, h.named (u ++ ['_'] ++ h.name) =
        h.lead ++ (u ++ ('_' :: h.name ++ h.tail)) := fun u => by simp [Header.named]
    have hname : ¬ a <:+: '_' :: h.name := hn h.name (by simp [keyframesName, ht])
    show h.named (b ++ ['_'] ++ h.name) = replaceAll a b (h.named (a ++ ['_'] ++ h.name))
    rw [hnamed, hnamed, replaceAll_append ha b _ _ (hlast _), replaceAll_prefix a b _ ha.1,
      replaceAll_append ha b _ _ htail, replaceAll_absent a b _ hl,
      replaceAll_absent a b _ hname, replaceAll_absent a b _ htl]

theorem renameLine_replaced (ha : IsWordText a) (b : Text) (ns : List Text)
    (hn : ∀ n ∈ ns, n ≠ [] ∧ ¬ a <:+: '_' :: n) (d : Declaration) (hd : ¬ a <:+: d.text) :
    Animation.renameLine ns (b ++ ['_'] ++ ·) d =
      (Animation.renameLine ns (a ++ ['_'] ++ ·) d).replaced a b := by
  rw [Animation.renameLine, Animation.renameLine]
  split
  · have hh : ¬ a <:+: d.head := fun hi => hd (hi.trans (List.takeWhile_prefix _).isInfix)
    have hv : ¬ a <:+: d.value := by
      intro hi
      obtain ⟨n, hvn⟩ := dropTail_append_replicate ';' (d.text.dropWhile (· != ':')).tail
      have hp : d.value <+: (d.text.dropWhile (· != ':')).tail := ⟨_, hvn.symm⟩
      have hs := (List.tail_suffix _).trans (List.dropWhile_suffix (l := d.text) (· != ':'))
      exact hd (hi.trans (hp.isInfix.trans hs.isInfix))
    have hr := replaceAll_replaceFrom ha b ns hn d.value false hv
    rw [Declaration.replaced, List.append_assoc, List.append_assoc, List.cons_append,
      List.cons_append, replaceAll_beside ha b _ ':' _ (by decide),
      replaceAll_beside ha b _ ';' _ (by decide), replaceAll_absent a b _ hh]
    simp only [replaceNames, hr]
    rfl
  · exact congrArg (Declaration.mk · d.line) (replaceAll_absent a b d.text hd).symm

theorem renameRule_replaced (h₁ : Foreign a ts) (b : Text) (r : Rule)
    (hr : r ∈ (ledger ('.' :: a) ts).filled) (ns : List Text)
    (hn : ∀ n ∈ ns, n ≠ [] ∧ n ∈ namesDeclared ts) :
    Animation.renameRule ns (b ++ ['_'] ++ ·) (r.replaced a b) =
      (Animation.renameRule ns (a ++ ['_'] ++ ·) r).replaced a b := by
  have hgr := group_filled h₁ r hr
  have hl : ∀ d ∈ r.lines, .declaration d ∈ ts := fun d hd =>
    mem_lines_ledger _ ts r d (List.mem_of_mem_filter hr) hd
  have hg := renameGroup_replaced h₁.word b r.group hgr fun n hm =>
    h₁.names n (name_filled h₁ r hr n hm)
  have hd : r.lines.map (Animation.renameLine ns (b ++ ['_'] ++ ·)) =
      (r.lines.map (Animation.renameLine ns (a ++ ['_'] ++ ·))).map (Declaration.replaced a b) := by
    rw [List.map_map]
    exact List.map_congr_left fun d hm => renameLine_replaced h₁.word b ns
      (fun n hnn => ⟨(hn n hnn).1, h₁.names n (hn n hnn).2⟩) d (h₁.statements _ (hl d hm))
  rw [Animation.renameRule, Animation.renameRule, Rule.replaced, Rule.replaced,
    declarations_replaced h₁ b r.lines hl, replaceAll_absent a b _ hgr, hg, hd]

theorem names_replaced (h₁ : Foreign a ts) (h₂ : Foreign b ts) :
    Animation.names (ledger ('.' :: b) ts).filled =
      Animation.names (ledger ('.' :: a) ts).filled := by
  rw [filled_replaced h₁ h₂, Animation.names, Animation.names, List.filterMap_map]
  congr 1
  refine List.filterMap_congr fun r hr => ?_
  exact congrArg keyframesName (replaceAll_absent a b _ (group_filled h₁ r hr))

/-- The rules of a source under one class are those under the other, the identifier replaced. -/
theorem filled_run_replaced (source : Text) (h₁ : Foreign a (readSource source).statements)
    (h₂ : Foreign b (readSource source).statements) :
    (Unnesting.start source ('.' :: b) Settings.standard).run.book.filled =
      (Unnesting.start source ('.' :: a) Settings.standard).run.book.filled.map
        (Rule.replaced a b) := by
  rw [(Unnesting.run_standard source _).2, (Unnesting.run_standard source _).2]
  have hn := names_replaced h₁ h₂
  have hf := filled_replaced h₁ h₂
  by_cases he : Animation.names (ledger ('.' :: a) (readSource source).statements).filled = []
  · rw [Animation.rename_of_names_nil _ _ he, Animation.rename_of_names_nil _ _ (hn.trans he), hf]
  · rw [Animation.filled_rename_names _ _ he, Animation.filled_rename_names _ _ (hn ▸ he), hn, hf,
      List.map_map, List.map_map]
    refine List.map_congr_left fun r hr => renameRule_replaced h₁ b r hr _ fun n hm => ?_
    obtain ⟨s, hs, hsn⟩ := (Animation.mem_names _ n).mp hm
    exact ⟨Animation.ne_nil_of_mem_names _ n hm, name_filled h₁ s hs n hsn⟩

/-- Css depends on a class by substitution alone: replacing its identifier by another that is as
foreign to the source gives the css under the other, with the same rules in the same order. -/
theorem css_by_substitution (source : Text) (ha : Foreign a (readSource source).statements)
    (hb : Foreign b (readSource source).statements) :
    replaceAll a b (Unnesting.start source ('.' :: a) Settings.standard).run.css =
        (Unnesting.start source ('.' :: b) Settings.standard).run.css ∧
      (Unnesting.start source ('.' :: b) Settings.standard).run.book.filled =
        (Unnesting.start source ('.' :: a) Settings.standard).run.book.filled.map
          (Rule.replaced a b) := by
  have hf := filled_run_replaced source ha hb
  have hg := filled_run_replaced source hb ha
  refine ⟨?_, hf⟩
  have hk : Sheet.KeepsGroups a b
      (Unnesting.start source ('.' :: a) Settings.standard).run.book.filled := by
    rw [hf, List.map_map] at hg
    intro r hr
    exact congrArg Rule.group (List.map_eq_map_iff.mp (hg.symm.trans (List.map_id _).symm) r hr)
  rw [Unnesting.css, Unnesting.css, hf, (Unnesting.run_standard source _).1,
    (Unnesting.run_standard source _).1, Sheet.rendered_replaced ha.word hk]
  decide

theorem css_by_substitution_of_cards :
    let source := ("@media print\x7b.card,.tile\x7b&:hover\x7bcolor:red;\x7d\x7d\x7d" ++
      "@keyframes fade\x7bto\x7btop:0;\x7d\x7d.a &\x7banimation:fade 1s;\x7d").toList
    replaceAll "card_1".toList "z9".toList
        (Unnesting.start source ".card_1".toList Settings.standard).run.css =
      (Unnesting.start source ".z9".toList Settings.standard).run.css := by
  intro source
  obtain ⟨ha, hb⟩ : Foreign "card_1".toList (readSource source).statements ∧
      Foreign "z9".toList (readSource source).statements := by
    decide +kernel
  exact (css_by_substitution source ha hb).1

/-- Whether an identifier stands in none of the texts that css is put together from. -/
def Unspoken (id source : Text) : Prop :=
  IsWordText id ∧ ¬ id <:+: source ∧ ¬ id <:+: Condition.joint ∧
    ¬ id <:+: Settings.standard.indent ∧ ¬ id <:+: Settings.standard.separator

instance (id source : Text) : Decidable (Unspoken id source) :=
  inferInstanceAs (Decidable (_ ∧ _))

/-- What is not spoken in the source may yet come up with it: in a name that is put together behind
`&`, in the name of keyframes behind its label, and in a string that breaks off at the end of a
line. -/
theorem substitution_finds_more :
    let css (source id : Text) := (Unnesting.start source ('.' :: id) Settings.standard).run.css
    let other := "x1".toList
    let title := ".card\x7b&__title\x7bcolor:red;\x7d\x7d".toList
    let fade := "@keyframes fade\x7bto\x7btop:0;\x7d\x7d".toList
    let broken := ".c\x7bcontent:\"a\nb;\x7d".toList
    (Unspoken "card__title".toList title ∧ Unspoken other title ∧
        replaceAll "card__title".toList other (css title "card__title".toList) ≠ css title other) ∧
      (Unspoken "_fade".toList fade ∧ Unspoken other fade ∧
        replaceAll "_fade".toList other (css fade "_fade".toList) ≠ css fade other) ∧
      (Unspoken "ab".toList broken ∧ Unspoken other broken ∧
        replaceAll "ab".toList other (css broken "ab".toList) ≠ css broken other) := by
  decide +kernel

end Substitution

end NestedCss
