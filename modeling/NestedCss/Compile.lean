import NestedCss.Fragment
import NestedCss.Squeeze
import NestedCss.Unnesting

/-!
# Compiling

A template is a row of chunks with a value behind each but the last. Chunks and values are put
together in turn, squeezed and unnested under the scope. Where one of the rows is too long the rest
of it follows by itself, and a missing chunk or value adds nothing.
-/

set_option autoImplicit false

namespace NestedCss

/-- A result and what is reported on the way to it, in order. -/
structure Reported where
  text : Text
  notices : List Notice
  deriving DecidableEq, Repr

structure Template where
  chunks : List (Option Text)
  values : List Raw
  deriving DecidableEq, Repr

namespace Template

def interleave (prior : Prior) : List (Option Text) → List Raw → List Fragment
  | [], vs => vs.map (Fragment.ofRaw prior)
  | c :: cs, vs =>
    .text (c.getD []) :: (vs.take 1).map (Fragment.ofRaw prior) ++ interleave prior cs (vs.drop 1)

/-- The chunks and the values in turn. -/
def fragments (t : Template) (prior : Prior) : List Fragment := interleave prior t.chunks t.values

/-- A template should have one chunk more than values. -/
def countNotices (t : Template) : List Notice :=
  if t.chunks.length = t.values.length + 1 then []
  else [.chunkCount t.chunks.length t.values.length]

/-- The nested css of a template. -/
def nested (t : Template) (prior : Prior) : Reported where
  text := Squeeze.squeeze ((t.fragments prior).flatMap (Fragment.rendered prior))
  notices := t.countNotices ++ (t.fragments prior).flatMap (Fragment.notices prior)

end Template

/-- The flat css of nested css under a scope. -/
def unnest (source scope : Text) (settings : Settings) : Reported :=
  let u := (Unnesting.start source scope settings).run
  ⟨u.css, u.book.keys.map .newKey ++ u.faults.map .fault⟩

/-- The flat css of nested css whose rules hold everywhere. -/
def unnestGlobally (source scope : Text) (settings : Settings) : Reported :=
  let r := unnest source scope settings
  { r with text := Scope.remove scope r.text }

/-- The flat css of a template under a scope. -/
def Template.compile (t : Template) (scope : Text) (prior : Prior) (settings : Settings) :
    Reported :=
  let r := t.nested prior
  let s := unnest r.text scope settings
  ⟨s.text, r.notices ++ s.notices⟩

theorem Template.text_compile (t : Template) (scope : Text) (prior : Prior) (settings : Settings) :
    (t.compile scope prior settings).text = (unnest (t.nested prior).text scope settings).text :=
  rfl

end NestedCss
