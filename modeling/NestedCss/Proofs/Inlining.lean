import NestedCss.Compile

/-!
# Reuse is inlining

A value in a template is worth its literal text: a name of earlier css is worth the css that is kept
under it, and what counts as no is worth nothing. A template comes to its chunks and these literals
in turn. So a value may as well be written out where it stands, and css that is put in for a name is
never searched for names again.
-/

set_option autoImplicit false

namespace NestedCss

/-- The text that a raw value is worth in a template. -/
def Raw.literal (prior : Prior) : Raw → Text
  | .null => []
  | .bool b => if b then "true".toList else []
  | .text t => if t = [] then [] else (prior.lookup t).getD t
  | .number n => n.text
  | .foreign t => t
  | .fragment f => f.rendered prior

/-- The name that a raw value is looked up by. -/
def Raw.name? : Raw → Option Text
  | .text t => some t
  | .fragment (.reference name) => some name
  | _ => none

theorem Fragment.rendered_ofRaw (prior : Prior) (v : Raw) :
    (ofRaw prior v).rendered prior = v.literal prior := by
  cases v with
  | bool b => cases b <;> rfl
  | text t =>
    cases t with
    | nil => rfl
    | cons c r =>
      simp only [ofRaw, Raw.literal]
      cases hl : prior.lookup (c :: r) <;> simp [rendered, hl]
  | _ => rfl

/-- Earlier css counts only under the names that are looked up. -/
theorem lookup_filter (prior : Prior) (names : List Text) (name : Text) (h : name ∈ names) :
    (prior.filter fun e => names.contains e.1).lookup name = prior.lookup name := by
  induction prior with
  | nil => rfl
  | cons e es ih =>
    by_cases he : name = e.1
    · subst he
      rw [List.filter_cons_of_pos (by simpa using h), List.lookup_cons_self, List.lookup_cons_self]
    · have hb : (name == e.1) = false := by simpa using he
      rw [List.lookup_cons, hb, ← ih, List.filter_cons]
      split
      · rw [List.lookup_cons, hb]
      · rfl

theorem Raw.literal_filter (prior : Prior) (names : List Text) (v : Raw)
    (h : ∀ name, v.name? = some name → name ∈ names) :
    v.literal (prior.filter fun e => names.contains e.1) = v.literal prior := by
  cases v with
  | text t => simp only [literal, lookup_filter prior names t (h t rfl)]
  | fragment f =>
    cases f with
    | reference name =>
      simp only [literal, Fragment.rendered, lookup_filter prior names name (h name rfl)]
    | _ => rfl
  | _ => rfl

namespace Template

/-- A row of texts with nothing behind it up to a length. -/
def padded (length : Nat) (row : List Text) : List Text :=
  row ++ List.replicate (length - row.length) []

/-- Two rows of texts in turn, the shorter of them padded with nothing. -/
def alternated (row other : List Text) : Text :=
  let length := max row.length other.length
  (List.zipWith (· ++ ·) (padded length row) (padded length other)).flatten

/-- The chunks and the literals of the values in turn. -/
def alternating (t : Template) (prior : Prior) : Text :=
  alternated (t.chunks.map (·.getD [])) (t.values.map (Raw.literal prior))

/-- The names that the values themselves are looked up by. -/
def names (t : Template) : List Text := t.values.filterMap Raw.name?

/-- The template with its `i`-th value written out and merged with the chunks around it. -/
def inlined (t : Template) (prior : Prior) (i : Nat) : Template where
  chunks := (List.range i).map (fun j => t.chunks[j]?.join) ++
    some ((t.chunks[i]?.join.getD []) ++ (t.values[i]?.elim [] (Raw.literal prior)) ++
      (t.chunks[i + 1]?.join.getD [])) :: t.chunks.drop (i + 2)
  values := t.values.eraseIdx i

/-- What some chunks and values come to. -/
def woven (prior : Prior) (cs : List (Option Text)) (vs : List Raw) : Text :=
  (interleave prior cs vs).flatMap (Fragment.rendered prior)

/-- A chunk and a value come first where there are any. -/
theorem woven_eq (prior : Prior) (cs : List (Option Text)) (vs : List Raw) :
    woven prior cs vs =
      cs.head?.join.getD [] ++ vs.head?.elim [] (Raw.literal prior) ++
        woven prior cs.tail vs.tail := by
  have hv := Fragment.rendered_ofRaw prior
  have hc : ∀ t : Text, (Fragment.text t).rendered prior = t := fun _ => rfl
  cases cs <;> cases vs <;> simp [woven, interleave, hv, hc]

theorem alternated_eq (row other : List Text) :
    alternated row other =
      row.head?.getD [] ++ other.head?.getD [] ++ alternated row.tail other.tail := by
  cases row <;> cases other <;> simp [alternated, padded, Nat.succ_max_succ, List.replicate_succ]

theorem woven_alternated (prior : Prior) (cs : List (Option Text)) (vs : List Raw) :
    woven prior cs vs = alternated (cs.map (·.getD [])) (vs.map (Raw.literal prior)) := by
  have head : (vs.map (Raw.literal prior)).head?.getD [] =
      vs.head?.elim [] (Raw.literal prior) := by cases vs <;> rfl
  induction cs generalizing vs with
  | nil =>
    induction vs with
    | nil => rfl
    | cons v vs ih =>
      have hi := ih (by cases vs <;> rfl)
      rw [woven_eq, alternated_eq, head]
      exact congrArg _ hi
  | cons c cs ih =>
    have hi := ih vs.tail (by cases vs.tail <;> rfl)
    rw [woven_eq, alternated_eq, head, ← List.map_tail, ← List.map_tail]
    exact congrArg _ hi

/-- What is written out where it stood comes to the same. -/
theorem woven_inlined (prior : Prior) (t : Template) (i : Nat) :
    woven prior (t.inlined prior i).chunks (t.inlined prior i).values =
      woven prior t.chunks t.values := by
  obtain ⟨cs, vs⟩ := t
  induction i generalizing cs vs with
  | zero =>
    rw [woven_eq, woven_eq prior cs vs, woven_eq prior cs.tail vs.tail]
    cases cs <;> cases vs <;> simp [inlined, List.head?_eq_getElem?]
  | succ i ih =>
    have hi := ih cs.tail vs.tail
    rw [woven_eq, woven_eq prior cs vs, ← hi]
    cases cs <;> cases vs <;> simp [inlined, List.range_succ_eq_map, Function.comp_def]

theorem text_nested (t : Template) (prior : Prior) :
    (t.nested prior).text = Squeeze.squeeze (t.alternating prior) :=
  congrArg Squeeze.squeeze (woven_alternated prior t.chunks t.values)

theorem compile_congr (t u : Template) (scope : Text) (prior other : Prior) (settings : Settings)
    (h : t.alternating prior = u.alternating other) :
    (t.compile scope prior settings).text = (u.compile scope other settings).text := by
  rw [text_compile, text_compile, text_nested, text_nested, h]

theorem alternating_inlined (t : Template) (prior : Prior) (i : Nat) :
    (t.inlined prior i).alternating prior = t.alternating prior := by
  rw [alternating, ← woven_alternated, woven_inlined, woven_alternated]
  rfl

theorem alternating_filter (t : Template) (prior : Prior) :
    t.alternating (prior.filter fun e => t.names.contains e.1) = t.alternating prior := by
  rw [alternating, alternating]
  refine congrArg _ (List.map_congr_left fun v hv => ?_)
  exact Raw.literal_filter prior t.names v fun name hn => List.mem_filterMap.mpr ⟨v, hv, hn⟩

/-- Only the numbers of chunks and values can call for the warning about them. -/
theorem no_count_later (t : Template) (scope : Text) (prior : Prior) (settings : Settings) :
    ∃ later, (t.compile scope prior settings).notices = t.countNotices ++ later ∧
      ∀ n ∈ later, ∀ chunks values, n ≠ .chunkCount chunks values := by
  refine ⟨_, List.append_assoc _ _ _, ?_⟩
  intro n hn chunks values
  rintro rfl
  rcases List.mem_append.mp hn with hn | hn
  · obtain ⟨f, -, hf⟩ := List.mem_flatMap.mp hn
    cases f with
    | reference name =>
      rw [Fragment.notices] at hf
      split at hf <;> simp at hf
    | _ => simp [Fragment.notices] at hf
  · rcases List.mem_append.mp hn with hn | hn
    · obtain ⟨k, -, hk⟩ := List.mem_map.mp hn
      exact absurd hk (by simp)
    · obtain ⟨f, -, hf⟩ := List.mem_map.mp hn
      exact absurd hf (by simp)

/-- Reuse is inlining. A template is compiled as the css that its chunks and the literals of its
values come to in turn, the shorter row padded with nothing. Any value may be written out and merged
with its neighbours, and all of them at once, whatever is known by names then; and only what the
values themselves name is looked up, so that names in css that is put in are none. The warning about
the numbers of chunks and values comes first, and exactly when there is not one chunk more. -/
theorem reuse_is_inlining (t : Template) (scope : Text) (prior : Prior) (settings : Settings) :
    let css := (t.compile scope prior settings).text
    css = (unnest (Squeeze.squeeze (t.alternating prior)) scope settings).text ∧
    (∀ i, ((t.inlined prior i).compile scope prior settings).text = css) ∧
    (∀ other : Prior,
      (compile ⟨[some (t.alternating prior)], []⟩ scope other settings).text = css) ∧
    (t.compile scope (prior.filter fun e => t.names.contains e.1) settings).text = css ∧
    ∃ later, (t.compile scope prior settings).notices =
        (if t.chunks.length = t.values.length + 1 then []
          else [.chunkCount t.chunks.length t.values.length]) ++ later ∧
      ∀ n ∈ later, ∀ chunks values, n ≠ .chunkCount chunks values := by
  intro css
  refine ⟨?_, fun i => ?_, fun other => ?_, ?_, no_count_later t scope prior settings⟩
  · exact congrArg (fun s => (unnest s scope settings).text) (text_nested t prior)
  · exact compile_congr _ t scope prior prior settings (alternating_inlined t prior i)
  · refine compile_congr _ t scope other prior settings ?_
    simp [alternating, alternated, padded]
  · exact compile_congr t t scope _ prior settings (alternating_filter t prior)

end Template

end NestedCss
