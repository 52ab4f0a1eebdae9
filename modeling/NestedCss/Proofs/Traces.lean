import NestedCss.Proofs.Filing
import NestedCss.Proofs.Repeats

/-!
# Traces

The path behind each statement follows from the path before it: an opening brace adds its prelude, a
closing brace takes away the last one. So the keys that some statements reach and the places of
their declarations can be told statement by statement, and stretch by stretch.
-/

set_option autoImplicit false

namespace NestedCss.Filing

/-- The path behind a statement. -/
def behind (path : List Text) : Statement → List Text
  | .opening t _ => path ++ [t]
  | .closing _ => path.dropLast
  | _ => path

/-- The statements with the paths behind them. -/
def traced (path : List Text) : List Statement → List (Statement × List Text)
  | [] => []
  | s :: r => (s, behind path s) :: traced (behind path s) r

/-- The declaration with its path, where the statement is one. -/
def declared : Statement × List Text → Option (Declaration × List Text)
  | (.declaration d, path) => some (d, path)
  | _ => none

@[simp]
theorem declared_opening (t : Text) (line : Int) (path : List Text) :
    declared (.opening t line, path) = none := rfl

@[simp]
theorem declared_closing (line : Int) (path : List Text) :
    declared (.closing line, path) = none := rfl

@[simp]
theorem declared_declaration (d : Declaration) (path : List Text) :
    declared (.declaration d, path) = some (d, path) := rfl

theorem open_preludes_concat (ts : List Statement) (s : Statement) :
    openPreludes (ts ++ [s]) = behind (openPreludes ts) s := by
  cases s with
  | opening t line => exact open_preludes_opening ts t line
  | closing line => exact open_preludes_closing ts line
  | _ => simp [openPreludes, lookBack, behind]

theorem foldl_behind (ts : List Statement) : ts.foldl behind [] = openPreludes ts := by
  induction ts using List.reverseRecOn with
  | nil => rfl
  | append_singleton ts s ih => rw [List.foldl_append, ih, open_preludes_concat]; rfl

theorem inits_traced (before ts : List Statement) :
    ts.inits.map (fun us => openPreludes (before ++ us)) =
      openPreludes before :: (traced (openPreludes before) ts).map Prod.snd := by
  induction ts generalizing before with
  | nil => simp [traced]
  | cons s r ih =>
    have hs : (fun us => openPreludes (before ++ us)) ∘ (fun us => s :: us) =
        fun us => openPreludes (before ++ [s] ++ us) := by
      funext us
      simp
    rw [List.inits_cons, List.map_cons, List.map_map, List.append_nil, hs, ih,
      open_preludes_concat]
    rfl

theorem located_traced (before ts : List Statement) :
    located before ts = (traced (openPreludes before) ts).filterMap declared := by
  induction ts generalizing before with
  | nil => rfl
  | cons s r ih =>
    have hi := ih (before ++ [s])
    rw [open_preludes_concat] at hi
    cases s with
    | declaration d =>
      rw [located, traced, hi]
      rfl
    | _ =>
      rw [located, traced, hi]
      · rfl
      · simp

/-- The keys that some statements lead to, one after the other. -/
def keysAlong (scope : Text) (path : List Text) (ts : List Statement) : List Key :=
  (traced path ts).map fun p => pathKey scope p.2

theorem reached_keysAlong (scope : Text) (ts : List Statement) :
    reached scope ts = (pathKey scope [] :: keysAlong scope [] ts).eraseDups := by
  have hi := congrArg (List.map (pathKey scope)) (inits_traced [] ts)
  rw [List.map_map, List.map_cons, List.map_map] at hi
  exact congrArg List.eraseDups hi

theorem traced_append (path : List Text) (ss ts : List Statement) :
    traced path (ss ++ ts) = traced path ss ++ traced (ss.foldl behind path) ts := by
  induction ss generalizing path with
  | nil => rfl
  | cons s ss ih => exact congrArg _ (ih (behind path s))

/-- A block of statements that lead back to where they began. -/
theorem traced_block (path : List Text) (t : Text) (line₁ line₂ : Int) (ts : List Statement)
    (h : ts.foldl behind (path ++ [t]) = path ++ [t]) :
    (Statement.opening t line₁ :: ts ++ [Statement.closing line₂]).foldl behind path = path ∧
      traced path (Statement.opening t line₁ :: ts ++ [Statement.closing line₂]) =
        (.opening t line₁, path ++ [t]) :: traced (path ++ [t]) ts ++ [(.closing line₂, path)] := by
  constructor
  · rw [List.cons_append, List.foldl_cons, behind, List.foldl_append, h]
    simp [behind]
  · rw [List.cons_append, traced, behind, traced_append, h]
    simp [traced, behind]

/-- Statements that open and close blocks in pairs, blocks within blocks. -/
inductive WellNested : List Statement → Prop where
  | nil : WellNested []
  | flat (s : Statement) (ss : List Statement) (hs : ∀ path, behind path s = path)
      (h : WellNested ss) : WellNested (s :: ss)
  | block (t : Text) (line₁ line₂ : Int) (ss ts : List Statement) (hs : WellNested ss)
      (ht : WellNested ts) : WellNested (.opening t line₁ :: (ss ++ .closing line₂ :: ts))

/-- Statements that are well nested lead back to where they began, and leave alone what is open
before them. -/
theorem traced_nested {ss : List Statement} (h : WellNested ss) (path : List Text) :
    ss.foldl behind path = path ∧
      traced path ss = (traced [] ss).map fun p => (p.1, path ++ p.2) := by
  induction h generalizing path with
  | nil => exact ⟨rfl, rfl⟩
  | flat s ss hs _ ih =>
    obtain ⟨hb, ht⟩ := ih path
    rw [List.foldl_cons, traced, traced, hs, hs, ht, List.map_cons, List.append_nil]
    exact ⟨hb, rfl⟩
  | block t line₁ line₂ ss ts _ _ ihs iht =>
    have hback : (path ++ [t]).dropLast = path := List.dropLast_concat
    obtain ⟨hb, hs⟩ := ihs (path ++ [t])
    obtain ⟨hb', hs'⟩ := ihs [t]
    obtain ⟨hl, ht⟩ := iht path
    constructor
    · rw [List.foldl_cons, behind, List.foldl_append, hb, List.foldl_cons, behind, hback, hl]
    · simp only [traced, behind, traced_append, List.nil_append, hb, hb', hback, hs, hs', ht,
        List.map_cons, List.map_append, List.map_map, List.dropLast_singleton, List.append_nil]
      simp [Function.comp_def]

end NestedCss.Filing
