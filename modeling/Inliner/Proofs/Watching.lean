import Inliner.Console
import Inliner.Proofs.Recording
import Inliner.Proofs.Surroundings

/-! Watching a command: its messages, and what it stores, are written down as it goes. -/
namespace Inliner

/-- What a command does that is seen from outside: a message to the user, or a file that is stored,
with the answer of the call. -/
inductive Deed where
  | told (message : Message)
  | stored (path : String) (content : Text.Bytes) (answer : Except Thrown Unit)

namespace Deed

def message? : Deed → Option Message
  | told message => some message
  | stored .. => none

end Deed

def messages (deeds : List Deed) : List Message := deeds.filterMap Deed.message?

theorem messages_append (deeds more : List Deed) :
    messages (deeds ++ more) = messages deeds ++ messages more := List.filterMap_append

theorem messages_map_told (ms : List Message) : messages (ms.map .told) = ms := by
  rw [messages, List.filterMap_map]
  exact List.filterMap_some

variable {σ α : Type}

def unseen (σ : Type) : Passage (StateM σ) (StateT (List Deed) (StateM σ)) where
  carry x := StateT.lift x
  value _ := rfl
  sequence _ _ := rfl

/-- The workspace with all that it stores written down. -/
def Workspace.watched (w : Workspace (StateM σ)) : Workspace (StateT (List Deed) (StateM σ)) :=
  { (unseen σ).workspace w with
    store := fun path content =>
      ExceptT.mk (written (fun answer => [.stored path content answer])
        (w.store path content).run) }

def watchedPort (tell : Message → StateM σ Unit) (message : Message) :
    StateT (List Deed) (StateM σ) Unit := written (fun _ => [.told message]) (tell message)

variable {s s₁ : σ}

theorem records_carry (y : StateM σ α) (s : σ) :
    Records ((unseen σ).carry y) y s [] (y.run s).1 (y.run s).2 := records_lift y s

theorem records_unseen {y : StateM σ α} {x : StateT (List Deed) (StateM σ) α} {a : α}
    (hx : (unseen σ).carry y = x) (hrun : y.run s = (a, s₁)) : Records x y s [] a s₁ := by
  rw [← hx]
  exact ⟨hrun, writes_lift hrun⟩

theorem records_silent {y : ExceptT Thrown (StateM σ) α} {x : ExceptT Thrown _ α}
    {out : Except Thrown α} (hx : (unseen σ).ends y = x) (hrun : y.run.run s = (out, s₁)) :
    Records x.run y.run s [] out s₁ := records_unseen (congrArg ExceptT.run hx) hrun

theorem records_told (tell : Message → StateM σ Unit) (message : Message) (s : σ) :
    Records (watchedPort tell message) (tell message) s [.told message] ()
      ((tell message).run s).2 := records_written (y := tell message) rfl _

end Inliner
