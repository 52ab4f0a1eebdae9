import Mathlib.Data.List.DropRight
import Mathlib.Data.List.Infix
import NestedCss.Path

/-!
# Watching for escapes

A watch knows a string as the reading of a source does: a backslash inside it escapes the next
character. The pieces of a text are cut at the commas that the watch sees outside strings and
brackets. Texts that leave the watch as they found it may be joined, trimmed and put for one
another, and their pieces stay apart.
-/

set_option autoImplicit false

namespace NestedCss.Path

/-- What keeps a comma from cutting: the quote of the open string, with whether the next character
is escaped, and the depth of open brackets. -/
structure Watch where
  string : Option (Char × Bool)
  depth : Nat
  deriving DecidableEq, Repr

namespace Watch

def start : Watch := ⟨none, 0⟩

def cuts (w : Watch) (c : Char) : Bool := w == start && c == ','

def step (w : Watch) (c : Char) : Watch :=
  match w.string with
  | some (q, true) => { w with string := some (q, false) }
  | some (q, false) =>
    if c == '\\' then { w with string := some (q, true) }
    else if c == q then { w with string := none }
    else w
  | none =>
    if Mark.quotes.contains c then { w with string := some (c, false) }
    else if Mark.openers.contains c then { w with depth := w.depth + 1 }
    else if Mark.closers.contains c then { w with depth := w.depth - 1 }
    else w

def steps (w : Watch) (t : Text) : Watch := t.foldl step w

/-- Whether no comma of the text cuts it. -/
def uncut (w : Watch) : Text → Bool
  | [] => true
  | c :: r => !w.cuts c && uncut (w.step c) r

/-- Whether a text put where the watch stands is not cut and leaves the watch as it was. -/
def Keeps (w : Watch) (t : Text) : Prop := w.uncut t = true ∧ w.steps t = w

instance (w : Watch) (t : Text) : Decidable (Keeps w t) := inferInstanceAs (Decidable (_ ∧ _))

def cut (w : Watch) : Text → List Text
  | [] => [[]]
  | c :: r => if w.cuts c then [] :: cut w r else Text.consFirst c (cut (w.step c) r)

theorem steps_append (w : Watch) (s t : Text) : w.steps (s ++ t) = (w.steps s).steps t :=
  List.foldl_append

theorem uncut_append (w : Watch) (s t : Text) :
    w.uncut (s ++ t) = (w.uncut s && (w.steps s).uncut t) := by
  induction s generalizing w with
  | nil => simp [uncut, steps]
  | cons c s ih => simp [uncut, ih, steps, Bool.and_assoc]

theorem keeps_append (w : Watch) (s t : Text) (hs : w.Keeps s) (ht : w.Keeps t) :
    w.Keeps (s ++ t) := by
  refine ⟨?_, by rw [steps_append, hs.2, ht.2]⟩
  rw [uncut_append, hs.1, hs.2, ht.1]
  rfl

theorem cut_uncut (w : Watch) (t : Text) (h : w.uncut t = true) : w.cut t = [t] := by
  induction t generalizing w with
  | nil => rfl
  | cons c r ih =>
    simp only [uncut, Bool.and_eq_true, Bool.not_eq_true'] at h
    rw [cut, h.1, ih _ h.2]
    rfl

/-- A text that ends outside strings and brackets is parted from what follows a comma. -/
theorem cut_comma (w : Watch) (s t : Text) (h : w.uncut s = true) (hs : w.steps s = start) :
    w.cut (s ++ ',' :: t) = s :: start.cut t := by
  induction s generalizing w with
  | nil =>
    have hw : w = start := hs
    rw [hw]
    rfl
  | cons c s ih =>
    simp only [uncut, Bool.and_eq_true, Bool.not_eq_true'] at h
    rw [List.cons_append, cut, h.1, ih _ h.2 hs]
    rfl

theorem joined_cons (s t : Text) (ts : List Text) :
    joined (s :: t :: ts) = s ++ ',' :: joined (t :: ts) := by
  simp [joined, Text.join, List.intercalate]

theorem cut_joined (ps : List Text) (hn : ps ≠ []) (h : ∀ p ∈ ps, start.Keeps p) :
    start.cut (joined ps) = ps := by
  induction ps with
  | nil => exact absurd rfl hn
  | cons p ps ih =>
    have hp := h p (by simp)
    cases ps with
    | nil => simpa [joined, Text.join] using cut_uncut start p hp.1
    | cons q ps =>
      rw [joined_cons, cut_comma start p _ hp.1 hp.2, ih (by simp) fun a ha => h a (by simp [ha])]

/-- The pieces of a text that ends outside strings and brackets end there as well. -/
theorem cut_closed (w : Watch) (t : Text) (h : w.steps t = start) :
    ∃ p ps, w.cut t = p :: ps ∧ w.uncut p = true ∧ w.steps p = start ∧ ∀ q ∈ ps, start.Keeps q := by
  induction t generalizing w with
  | nil => exact ⟨[], [], rfl, rfl, h, by simp⟩
  | cons c r ih =>
    obtain ⟨p, ps, hp, hu, hs, hk⟩ := ih (w.step c) h
    cases hc : w.cuts c with
    | true =>
      obtain ⟨rfl, rfl⟩ : w = start ∧ c = ',' := by simpa [cuts] using hc
      refine ⟨[], p :: ps, ?_, rfl, rfl, ?_⟩
      · rw [cut, hc]
        exact congrArg _ hp
      · simpa using ⟨⟨hu, hs⟩, hk⟩
    | false =>
      refine ⟨c :: p, ps, ?_, ?_, hs, hk⟩
      · rw [cut, hc, hp]
        rfl
      · rw [uncut, hc, hu]
        rfl

theorem keeps_of_mem_cut (t p : Text) (h : start.steps t = start) (hp : p ∈ start.cut t) :
    start.Keeps p := by
  obtain ⟨q, qs, hq, hu, hs, hk⟩ := cut_closed start t h
  rw [hq] at hp
  rcases List.mem_cons.mp hp with rfl | hm
  · exact ⟨hu, hs⟩
  · exact hk p hm

/-! ## Characters that mean nothing -/

/-- The characters that a watch heeds. -/
def heeded : Text := Mark.quotes ++ Mark.openers ++ Mark.closers ++ ['\\', ',']

/-- A watch as it comes from the start: a string is open by a quote. -/
def Sane (w : Watch) : Prop := ∀ q e, w.string = some (q, e) → q ∈ Mark.quotes

theorem sane_step (w : Watch) (c : Char) (h : w.Sane) : (w.step c).Sane := by
  intro q e hq
  simp only [step] at hq
  split at hq
  · next q' hs =>
    obtain ⟨rfl, rfl⟩ := Prod.mk.inj (Option.some.inj hq)
    exact h _ _ hs
  · next q' hs =>
    have hm := h _ _ hs
    split_ifs at hq <;> simp_all
  · split_ifs at hq <;> simp_all

theorem sane_steps (w : Watch) (t : Text) (h : w.Sane) : (w.steps t).Sane := by
  induction t generalizing w with
  | nil => exact h
  | cons c r ih => exact ih (w.step c) (sane_step w c h)

theorem sane_start : start.Sane := by
  intro q e h
  simp [start] at h

/-- An unheeded character at most uses up an escape. -/
theorem step_unheeded (w : Watch) (c : Char) (hw : w.Sane) (hc : c ∉ heeded) :
    w.step c = { w with string := w.string.map fun (q, _) => (q, false) } := by
  simp only [heeded, List.mem_append, List.mem_cons, List.not_mem_nil, or_false, not_or] at hc
  obtain ⟨⟨⟨hq, ho⟩, hl⟩, hb, -⟩ := hc
  obtain ⟨string, depth⟩ := w
  match string with
  | none => simp [step, hq, ho, hl]
  | some (q, true) => rfl
  | some (q, false) =>
    have hn : c ≠ q := fun he => hq (he ▸ hw _ _ rfl)
    simp [step, hb, hn]

theorem cuts_unheeded (w : Watch) (c : Char) (hc : c ∉ heeded) : w.cuts c = false := by
  have hn : c ≠ ',' := by
    rintro rfl
    exact hc (by decide)
  simp [cuts, hn]

/-- Unheeded characters in a row do what one of them does. -/
theorem steps_unheeded (w : Watch) (c : Char) (t : Text) (hw : w.Sane)
    (ht : ∀ a ∈ c :: t, a ∉ heeded) : w.steps (c :: t) = w.step c := by
  induction t generalizing w c with
  | nil => rfl
  | cons a t ih =>
    have hc := step_unheeded w c hw (ht c (by simp))
    have hi := ih (w.step c) a (sane_step w c hw) fun b hb => ht b (List.mem_cons_of_mem c hb)
    have ha := step_unheeded (w.step c) a (sane_step w c hw) (ht a (by simp))
    show (w.step c).steps (a :: t) = w.step c
    rw [hi, ha, hc]
    simp [Option.map_map, Function.comp_def]

theorem uncut_unheeded (w : Watch) (t : Text) (ht : ∀ a ∈ t, a ∉ heeded) : w.uncut t = true := by
  induction t generalizing w with
  | nil => rfl
  | cons a t ih =>
    rw [uncut, cuts_unheeded w a (ht a (by simp)), ih _ fun b hb => ht b (by simp [hb])]
    rfl

theorem keeps_unheeded (w : Watch) (t : Text) (hw : w.string = none) (ht : ∀ a ∈ t, a ∉ heeded) :
    w.Keeps t := by
  refine ⟨uncut_unheeded w t ht, ?_⟩
  have hs : w.Sane := by
    intro q e h
    simp [hw] at h
  cases t with
  | nil => rfl
  | cons c t =>
    rw [steps_unheeded w c t hs ht, step_unheeded w c hs (ht c (by simp)), hw, Option.map_none,
      ← hw]

theorem eq_of_mem_heeded (c : Char) (h : c ∈ heeded) :
    c = '\x22' ∨ c = '\x27' ∨ c = '(' ∨ c = '[' ∨ c = ')' ∨ c = ']' ∨ c = '\\' ∨ c = ',' := by
  simpa [heeded, Mark.quotes, Mark.openers, Mark.closers] using h

theorem unheeded_blank (c : Char) (h : Text.isBlank c = true) : c ∉ heeded := by
  intro hc
  rcases eq_of_mem_heeded c hc with rfl | rfl | rfl | rfl | rfl | rfl | rfl | rfl <;>
    exact absurd h (by decide)

/-! ## Trimming -/

theorem eq_start_of_step (w : Watch) (c : Char) (hw : w.Sane) (hc : c ∉ heeded)
    (h : w.step c = start) : w = start := by
  rw [step_unheeded w c hw hc] at h
  obtain ⟨string, depth⟩ := w
  cases string <;> simp_all [start]

theorem steps_blank (w : Watch) (c : Char) (hw : w.Sane) (hc : Text.isBlank c = true)
    (h : w.step c = start) : w = start :=
  eq_start_of_step w c hw (unheeded_blank c hc) h

theorem steps_blanks (w : Watch) (t : Text) (hw : w.Sane) (ht : ∀ c ∈ t, Text.isBlank c = true)
    (h : w.steps t = start) : w = start := by
  induction t generalizing w with
  | nil => exact h
  | cons c t ih =>
    have hs := ih (w.step c) (sane_step w c hw) (fun a ha => ht a (by simp [ha])) h
    exact steps_blank w c hw (ht c (by simp)) hs

theorem trim_split (t : Text) : ∃ front back, t = front ++ (Text.trim t ++ back) ∧
    (∀ c ∈ front, Text.isBlank c = true) ∧ ∀ c ∈ back, Text.isBlank c = true := by
  have hs : Text.trim t ++ (t.dropWhile Text.isBlank).rtakeWhile Text.isBlank =
      t.dropWhile Text.isBlank := by
    rw [Text.trim, Text.dropTail, List.rtakeWhile, ← List.reverse_append,
      List.takeWhile_append_dropWhile, List.reverse_reverse]
  refine ⟨t.takeWhile Text.isBlank, (t.dropWhile Text.isBlank).rtakeWhile Text.isBlank, ?_,
    fun c => List.mem_takeWhile_imp, fun c => List.mem_rtakeWhile_imp⟩
  rw [hs, List.takeWhile_append_dropWhile]

theorem trim_eq_nil_iff (t : Text) :
    Text.trim t = [] ↔ t.any (!Text.isBlank ·) = false := by
  simp only [List.any_eq_false, Bool.not_eq_true', Bool.not_eq_false]
  constructor
  · intro h
    obtain ⟨front, back, ht, hf, hb⟩ := trim_split t
    rw [h, List.nil_append] at ht
    rw [ht]
    exact fun c hc => (List.mem_append.mp hc).elim (hf c) (hb c)
  · intro h
    rw [Text.trim, List.dropWhile_eq_nil_iff.mpr h]
    rfl

/-- Trimming takes nothing away that a watch heeds. -/
theorem steps_trim (t : Text) (h : start.steps t = start) : start.steps (Text.trim t) = start := by
  obtain ⟨front, back, ht, hf, hb⟩ := trim_split t
  have hk := (keeps_unheeded start front rfl fun c hc => unheeded_blank c (hf c hc)).2
  rw [ht, steps_append, hk, steps_append] at h
  exact steps_blanks _ back (sane_steps start _ sane_start) hb h

theorem uncut_trim (t : Text) (h : start.uncut t = true) : start.uncut (Text.trim t) = true := by
  obtain ⟨front, back, ht, hf, hb⟩ := trim_split t
  have hk := (keeps_unheeded start front rfl fun c hc => unheeded_blank c (hf c hc)).2
  rw [ht, uncut_append, hk, uncut_append, Bool.and_eq_true, Bool.and_eq_true] at h
  exact h.2.1

theorem keeps_trim (t : Text) (h : start.Keeps t) : start.Keeps (Text.trim t) :=
  ⟨uncut_trim t h.1, steps_trim t h.2⟩

end Watch

/-! ## Texts within texts -/

theorem infix_of_blank_front (s front t : Text) (hs : ∀ c ∈ s, Text.isBlank c = false) (hn : s ≠ [])
    (hf : ∀ c ∈ front, Text.isBlank c = true) (h : s <:+: front ++ t) : s <:+: t := by
  induction front with
  | nil => exact h
  | cons b front ih =>
    rw [List.cons_append, List.infix_cons_iff] at h
    rcases h with hp | hi
    · obtain ⟨a, s, rfl⟩ := List.exists_cons_of_ne_nil hn
      have hab := (List.cons_prefix_cons.mp hp).1
      have ha := hs a (by simp)
      rw [hab, hf b (by simp)] at ha
      exact absurd ha (by simp)
    · exact ih (fun c hc => hf c (by simp [hc])) hi

/-- Trimming cuts into no text without blanks. -/
theorem infix_trim (s t : Text) (hs : ∀ c ∈ s, Text.isBlank c = false) (hn : s ≠ [])
    (h : s <:+: t) : s <:+: Text.trim t := by
  obtain ⟨front, back, ht, hf, hb⟩ := Watch.trim_split t
  rw [ht] at h
  have hr := infix_of_blank_front s front _ hs hn hf h
  rw [← List.reverse_infix, List.reverse_append] at hr
  rw [← List.reverse_infix]
  exact infix_of_blank_front s.reverse back.reverse _ (by simpa using hs) (by simpa using hn)
    (by simpa using hb) hr

theorem infix_putParent (path segment : Text) (h : '&' ∈ segment) :
    path <:+: putParent path segment := by
  obtain ⟨s, t, rfl⟩ := List.append_of_mem h
  exact ⟨putParent path s, putParent path t, by simp [putParent]⟩

theorem infix_attach (s path segment : Text) (hs : ∀ c ∈ s, Text.isBlank c = false) (hn : s ≠ [])
    (h : s <:+: path) : s <:+: attach path segment := by
  rw [attach]
  split_ifs with ha hw
  · exact infix_trim s _ hs hn (h.trans (infix_putParent path segment (by simpa using ha)))
  · exact h.trans (List.prefix_append path _).isInfix
  · exact h.trans (List.prefix_append path segment).isInfix

/-! ## Paths that shelter -/

/-- Whether the path, put for every `&` of a segment, is not cut there and does to the watch what
the `&` does. -/
def fits (path : Text) (w : Watch) : Text → Bool
  | [] => true
  | c :: r =>
    (c != '&' || (w.uncut path && w.steps path == w.step '&')) && fits path (w.step c) r

/-- Whether a list of paths and a list of segments are cut as the watch cuts them, and each path
fits each segment. -/
def shelters (path segment : Text) : Bool :=
  entries path == Watch.start.cut path && entries segment == Watch.start.cut segment &&
    (entries path).all fun p => (entries segment).all fun s => fits p Watch.start s

/-- Whether all the lists of a stack are attached in shelter, from a path on. -/
def sheltered (path : Text) : List Text → Bool
  | [] => true
  | t :: ts => shelters path t && sheltered (attachList path t) ts

theorem putParent_fits (path segment : Text) (w : Watch) (hs : w.uncut segment = true)
    (hf : fits path w segment = true) :
    w.uncut (putParent path segment) = true ∧
      w.steps (putParent path segment) = w.steps segment := by
  induction segment generalizing w with
  | nil => exact ⟨rfl, rfl⟩
  | cons c r ih =>
    simp only [fits, Bool.and_eq_true] at hf
    simp only [Watch.uncut, Bool.and_eq_true, Bool.not_eq_true'] at hs
    have hi := ih (w.step c) hs.2 hf.2
    by_cases hc : c = '&'
    · subst hc
      have hp : w.uncut path = true ∧ w.steps path = w.step '&' := by simpa using hf.1
      rw [putParent_parent, Watch.uncut_append, Watch.steps_append, hp.1, hp.2]
      exact hi
    · rw [putParent_cons path r c hc, Watch.uncut, hs.1]
      exact hi

theorem keeps_attach (path segment : Text) (hp : Watch.start.Keeps path)
    (hs : Watch.start.Keeps segment) (hf : fits path Watch.start segment = true) :
    Watch.start.Keeps (attach path segment) := by
  rw [attach]
  split_ifs
  · have h := putParent_fits path segment Watch.start hs.1 hf
    exact Watch.keeps_trim _ ⟨h.1, h.2.trans hs.2⟩
  · have hb : Watch.start.Keeps [' '] := by decide
    exact Watch.keeps_append _ path _ hp (Watch.keeps_append _ [' '] segment hb hs)
  · exact Watch.keeps_append _ path segment hp hs

theorem pairings_ne_nil (path segment : Text) :
    pairings (entries path) (entries segment) ≠ [] := by
  obtain ⟨p, ps, hp⟩ := List.exists_cons_of_ne_nil (cut_ne_nil Guard.start path)
  obtain ⟨s, ss, hs⟩ := List.exists_cons_of_ne_nil (cut_ne_nil Guard.start segment)
  simp [pairings, entries, hp, hs]

/-- Every piece of a path ends outside strings and brackets and holds the scope. -/
structure Inside (scope path : Text) : Prop where
  keeps : ∀ p ∈ Watch.start.cut path, Watch.start.Keeps p
  holds : ∀ p ∈ Watch.start.cut path, scope <:+: p

theorem inside_attachList (scope path segment : Text) (hb : ∀ c ∈ scope, Text.isBlank c = false)
    (hn : scope ≠ []) (h : Inside scope path) (hs : Watch.start.steps segment = Watch.start)
    (hf : shelters path segment = true) : Inside scope (attachList path segment) := by
  simp only [shelters, Bool.and_eq_true, beq_iff_eq, List.all_eq_true] at hf
  obtain ⟨⟨hp, hc⟩, hf⟩ := hf
  have hk : ∀ q ∈ pairings (entries path) (entries segment),
      Watch.start.Keeps q ∧ scope <:+: q := by
    intro q hq
    simp only [pairings, List.mem_flatMap, List.mem_map] at hq
    obtain ⟨p, hpm, s, hsm, rfl⟩ := hq
    have hsk := Watch.keeps_of_mem_cut segment s hs (hc ▸ hsm)
    exact ⟨keeps_attach p s (h.keeps p (hp ▸ hpm)) hsk (hf p hpm s hsm),
      infix_attach scope p s hb hn (h.holds p (hp ▸ hpm))⟩
  have hj := Watch.cut_joined _ (pairings_ne_nil path segment) fun q hq => (hk q hq).1
  refine ⟨fun q hq => ?_, fun q hq => ?_⟩ <;> rw [attachList, hj] at hq
  · exact (hk q hq).1
  · exact (hk q hq).2

theorem inside_foldl (scope path : Text) (ts : List Text)
    (hb : ∀ c ∈ scope, Text.isBlank c = false) (hn : scope ≠ []) (h : Inside scope path)
    (ht : ∀ t ∈ ts, Watch.start.steps t = Watch.start) (hf : sheltered path ts = true) :
    Inside scope (ts.foldl attachList path) := by
  induction ts generalizing path with
  | nil => exact h
  | cons t ts ih =>
    rw [sheltered, Bool.and_eq_true] at hf
    have hi := inside_attachList scope path t hb hn h (ht t (by simp)) hf.1
    exact ih (attachList path t) hi (fun s hs => ht s (by simp [hs])) hf.2

end NestedCss.Path
