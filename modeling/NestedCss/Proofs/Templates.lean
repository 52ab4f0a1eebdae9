import NestedCss.Proofs.Anchors
import NestedCss.Proofs.Trimming

/-!
# Selectors with the scope left open

What a stack of lists composes to depends on the scope by substitution alone: a template with `&`
for the scope is composed in its stead, where an `&` counts as a word, and the class is put in at
the end. A class is cut nowhere, has no blank at either end and ends in a word, so that lists are
cut, trimmed and attached with the template as with the class.
-/

set_option autoImplicit false

namespace NestedCss.Path
open Containment Filing Scan

def attachTemplate (path segment : Text) : Text :=
  if segment.contains '&' then Text.trim (putParent path segment)
  else if endsInWord (putParent ['x'] path) && startsCompound segment then path ++ ' ' :: segment
  else path ++ segment

def attachTemplates (path segment : Text) : Text :=
  joined ((entries path).flatMap fun p => (entries segment).map (attachTemplate p))

/-- What the selectors of some preludes compose to, with `&` for the scope. Within keyframes the
scope takes no part. -/
def template (preludes : List Text) : Text :=
  match innermostKeyframes preludes with
  | some (_, above) => compose above
  | none => (ofKind .selector preludes).foldl attachTemplates ['&']

theorem putParent_append (path s t : Text) :
    putParent path (s ++ t) = putParent path s ++ putParent path t :=
  List.flatMap_append

/-- Paths are put for `&` one in the other. -/
theorem putParent_putParent (scope path segment : Text) :
    putParent scope (putParent path segment) = putParent (putParent scope path) segment := by
  rw [putParent, putParent, List.flatMap_assoc]
  refine List.flatMap_congr fun c _ => ?_
  split
  · rfl
  · next hc => exact (List.flatMap_singleton _ _).trans (if_neg hc)

namespace Guard

/-- A guard heeds what is put for `&` as little as `&`. -/
theorem guard_putParent (scope : Text) (hs : ∀ c ∈ scope, c ∉ Watch.heeded) (g : Guard)
    (hg : g.Sane) (t : Text) :
    g.uncut (putParent scope t) = g.uncut t ∧ g.steps (putParent scope t) = g.steps t := by
  induction t generalizing g with
  | nil => exact ⟨rfl, rfl⟩
  | cons c t ih =>
    by_cases hc : c = '&'
    · subst hc
      obtain ⟨hu, hk⟩ := keeps_unheeded g scope hg hs
      obtain ⟨hst, hct⟩ := step_unheeded g '&' hg (by decide)
      obtain ⟨hi, hj⟩ := ih g hg
      rw [putParent_parent, uncut_append, steps_append, hu, hk, hi, hj, uncut, hst, hct]
      exact ⟨rfl, by rw [steps, steps, List.foldl_cons, hst]⟩
    · obtain ⟨hi, hj⟩ := ih (g.step c) (sane_step g c hg)
      rw [putParent_cons scope t c hc, uncut, uncut, hi]
      exact ⟨rfl, hj⟩

end Guard

variable {scope : Text}

theorem joined_putParent (es : List Text) :
    joined (es.map (putParent scope)) = putParent scope (joined es) := by
  induction es with
  | nil => rfl
  | cons e es ih =>
    cases es with
    | nil => simp [joined, Text.join]
    | cons f es =>
      rw [List.map_cons, List.map_cons, Watch.joined_cons, Watch.joined_cons, ← List.map_cons, ih,
        putParent_append]
      rfl

/-- A list is cut where it is cut with the scope left open. -/
theorem entries_putParent (hs : ∀ c ∈ scope, c ∉ Watch.heeded) (t : Text) :
    entries (putParent scope t) = (entries t).map (putParent scope) := by
  have hp := Guard.cut_pieces _ _ (Guard.pieces_map (putParent scope) (entries t)
    (Guard.guard_putParent scope hs Guard.start Guard.sane_start)
    (Guard.pieces_cut _ t))
  rw [joined_putParent, entries, joined_cut] at hp
  exact hp

theorem trim_within (front t back : Text) (hf : ∀ c ∈ front, Text.isBlank c = true)
    (hb : ∀ c ∈ back, Text.isBlank c = true) (ht : Text.trim t = t) :
    Text.trim (front ++ (t ++ back)) = t := by
  rw [Text.trim, List.dropWhile_append_of_pos hf, ← Text.trim, Text.trim_append_blank t back hb, ht]

theorem head_putParent (hn : scope ≠ []) (hs : ∀ c ∈ scope, Text.isBlank c = false) (t : Text)
    (ht : ∀ c ∈ t.head?, Text.isBlank c = false) :
    ∀ c ∈ (putParent scope t).head?, Text.isBlank c = false := by
  cases t with
  | nil => simp [putParent]
  | cons a t =>
    have hp : putParent scope (a :: t) =
        (if a == '&' then scope else [a]) ++ putParent scope t := rfl
    intro c hc
    rw [hp] at hc
    split at hc
    · rw [List.head?_append_of_ne_nil _ hn] at hc
      exact hs c (List.mem_of_mem_head? hc)
    · exact ht c hc

theorem reverse_putParent (scope t : Text) :
    (putParent scope t).reverse = putParent scope.reverse t.reverse := by
  rw [putParent, putParent, List.reverse_flatMap]
  refine List.flatMap_congr fun c _ => ?_
  simp only [Function.comp_apply]
  split <;> rfl

/-- Trimming passes by what is put for `&`. -/
theorem trim_putParent (hn : scope ≠ []) (hs : ∀ c ∈ scope, Text.isBlank c = false) (t : Text) :
    Text.trim (putParent scope t) = putParent scope (Text.trim t) := by
  obtain ⟨front, back, ht, hf, hb⟩ := Watch.trim_split t
  have hblank : ∀ b : Text, (∀ c ∈ b, Text.isBlank c = true) → putParent scope b = b := by
    intro b hbl
    exact putParent_of_not_mem scope b fun hm => absurd (hbl '&' hm) (by decide)
  obtain ⟨hh, hl⟩ := (Text.trimmed_iff _).mp (Text.trim_trim t)
  have htr : Text.trim (putParent scope (Text.trim t)) = putParent scope (Text.trim t) := by
    have hh' := head_putParent hn hs _ hh
    refine (Text.trimmed_iff _).mpr ⟨hh', ?_⟩
    have hl' : ∀ c ∈ (putParent scope.reverse (Text.trim t).reverse).head?,
        Text.isBlank c = false :=
      head_putParent (by simpa using hn) (by simpa using hs) _ (by simpa using hl)
    rw [← reverse_putParent] at hl'
    simpa using hl'
  conv_lhs => rw [ht]
  rw [putParent_append, putParent_append, hblank front hf, hblank back hb]
  exact trim_within front _ back hf hb htr

theorem endsInWord_cons (c : Char) (s t : Text) (hc : c ≠ '\n') (ht : t.reverse = c :: s) :
    endsInWord t = Text.isWord c := by
  rw [endsInWord, ht]
  split
  · next heq => exact absurd (List.cons.inj heq).1 hc
  · next heq => rw [(List.cons.inj heq).1]
  · next heq => simp at heq

theorem endsInWord_break (c : Char) (s t : Text) (ht : t.reverse = '\n' :: c :: s) :
    endsInWord t = Text.isWord c := by
  simp [endsInWord, ht]

/-- Behind a class, as behind `&`, a word ends. -/
theorem endsInWord_putParent (w : Char) (s : Text) (hs : scope.reverse = w :: s)
    (hw : Text.isWord w = true) (t : Text) :
    endsInWord (putParent scope t) = endsInWord (putParent ['x'] t) := by
  have hx : Text.isWord 'x' = true := by decide
  have hwn : w ≠ '\n' := by
    rintro rfl
    exact absurd hw (by decide)
  have hr := reverse_putParent scope t
  have hrx := reverse_putParent ['x'] t
  rw [hs] at hr
  cases hc : t.reverse with
  | nil =>
    obtain rfl := List.reverse_eq_nil_iff.mp hc
    rfl
  | cons c r =>
    rw [hc] at hr hrx
    by_cases hamp : c = '&'
    · subst hamp
      rw [endsInWord_cons w _ _ hwn hr, endsInWord_cons 'x' _ _ (by decide) hrx, hw, hx]
    by_cases hbr : c = '\n'
    · subst hbr
      rw [putParent_cons _ _ _ (by decide)] at hr hrx
      cases r with
      | nil =>
        simp only [endsInWord, hr, hrx]
        rfl
      | cons d r =>
        by_cases hd : d = '&'
        · subst hd
          rw [endsInWord_break w _ _ hr, endsInWord_break 'x' _ _ hrx, hw, hx]
        · rw [putParent_cons _ r d hd] at hr hrx
          rw [endsInWord_break d _ _ hr, endsInWord_break d _ _ hrx]
    · rw [putParent_cons _ r c hamp] at hr hrx
      rw [endsInWord_cons c _ _ hbr hr, endsInWord_cons c _ _ hbr hrx]

theorem reverse_class (h : IsClass scope) :
    ∃ w s, scope.reverse = w :: s ∧ Text.isWord w = true := by
  obtain ⟨a, w, rfl, hw⟩ := h
  obtain ⟨v, c, hv⟩ := (List.eq_nil_or_concat (a :: w)).resolve_left (by simp)
  rw [List.concat_eq_append] at hv
  exact ⟨c, v.reverse ++ ['.'], by rw [hv]; simp, hw c (by rw [hv]; simp)⟩

theorem endsInWord_class (h : IsClass scope) : endsInWord scope = true := by
  obtain ⟨w, s, hs, hw⟩ := reverse_class h
  have hn : w ≠ '\n' := by
    rintro rfl
    exact absurd hw (by decide)
  rw [endsInWord_cons w s scope hn hs, hw]

/-- A segment is attached to the class as it is to the template. -/
theorem attach_putParent (h : IsClass scope) (path segment : Text) :
    attach (putParent scope path) segment = putParent scope (attachTemplate path segment) := by
  obtain ⟨w, s, hs, hw⟩ := reverse_class h
  rw [attach, attachTemplate, ← putParent_putParent, endsInWord_putParent w s hs hw,
    trim_putParent (ne_nil_class h) (blank_class h)]
  split
  · rfl
  · next hc =>
    have hseg : putParent scope segment = segment :=
      putParent_of_not_mem scope segment (by simpa using hc)
    split
    · have hsp : putParent scope (' ' :: segment) = ' ' :: putParent scope segment := rfl
      rw [putParent_append, hsp, hseg]
    · rw [putParent_append, hseg]

theorem attachList_putParent (h : IsClass scope) (path t : Text) :
    attachList (putParent scope path) t = putParent scope (attachTemplates path t) := by
  rw [attachList, attachTemplates, ← joined_putParent, pairings,
    entries_putParent (unheeded_class h), List.flatMap_map, List.map_flatMap]
  congr 1
  refine List.flatMap_congr fun p _ => ?_
  rw [List.map_map]
  exact List.map_congr_left fun e _ => attach_putParent h p e

/-- What is composed on a class is the template with the class put in. -/
theorem foldl_putParent (h : IsClass scope) (path : Text) (ts : List Text) :
    ts.foldl attachList (putParent scope path) =
      putParent scope (ts.foldl attachTemplates path) := by
  induction ts generalizing path with
  | nil => rfl
  | cons t ts ih => rw [List.foldl_cons, List.foldl_cons, attachList_putParent h, ih]

end NestedCss.Path
