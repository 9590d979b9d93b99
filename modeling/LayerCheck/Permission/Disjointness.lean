import LayerCheck.Flow.Basic
import LayerCheck.Permission.Basic

/-!
# Disjointness assumptions

The permissions of available variables are disjoint after every parallel call, after every call of
a yielding procedure and at the head of every loop. `Implementation.withDisjointness` says so there
by assumptions, and changes nothing else.
-/

namespace LayerCheck

/-- The site after a command at which other threads may have run. -/
def Command.yieldSite? (yielding : List String) : Command → Option Site
  | .call c => if c.callee ∈ yielding then some (.command c.id) else none
  | .par p => some (.command p.id)
  | _ => none

namespace Permissions

def assumeAfter (p : Permissions) (yielding : List String) (scope : List Variable)
    (c : Command) : List Command :=
  c :: ((c.yieldSite? yielding).map fun s => p.assumeDisjoint s scope).getD []

end Permissions

namespace Implementation

def assumeAfterCalls (i : Implementation) (p : Permissions) (yielding : List String) :
    Implementation :=
  { i with
    blocks := i.blocks.map fun b =>
      { b with commands := b.commands.flatMap (p.assumeAfter yielding i.vars) } }

def assumeAtHead (i : Implementation) (p : Permissions) (copies : Copies) (header : String) :
    Implementation :=
  let assumes := p.assumeDisjoint (copies.headSite i.name header) i.vars
  { i with
    blocks := Block.modifyFirst header (fun b => { b with commands := assumes ++ b.commands })
      i.blocks }

def withDisjointness (i : Implementation) (p : Permissions) (copies : Copies)
    (yielding : List String) : Implementation :=
  let i := i.assumeAfterCalls p yielding
  i.flow.loopHeaders.foldl (fun i h => i.assumeAtHead p copies h) i

theorem name_foldl_assumeAtHead (p : Permissions) (copies : Copies) (headers : List String)
    (i : Implementation) :
    (headers.foldl (fun i h => i.assumeAtHead p copies h) i).name = i.name := by
  induction headers generalizing i with
  | nil => rfl
  | cons h hs ih => exact ih _

@[simp] theorem name_withDisjointness (i : Implementation) (p : Permissions) (copies : Copies)
    (yielding : List String) : (i.withDisjointness p copies yielding).name = i.name :=
  name_foldl_assumeAtHead ..

end Implementation

end LayerCheck
