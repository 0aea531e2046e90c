import Mathlib.Logic.Function.Basic
import BlockchainTutorial.Pbft.Turns

namespace BlockchainTutorial.Pbft

variable {H : Type}

/-! The four nodes, of which one may be Byzantine. Requests and pre-prepares come in
with any content. A vote has the NodeID of its sender: one of an honest node was
posted, and goes to the others, in any order and any number of times; one of the
Byzantine node has any content. -/

def nodeIDs : List String := nodeTable.map (·.1)

/-- A node of the table that runs the code. -/
def Honest (byzantine : Option String) (nodeID : String) : Prop :=
  nodeID ∈ nodeIDs ∧ byzantine ≠ some nodeID

instance (byzantine : Option String) (nodeID : String) :
    Decidable (Honest byzantine nodeID) :=
  inferInstanceAs (Decidable (_ ∧ _))

structure Network (H : Type) where
  nodes : String → Node H
  sent : List (VoteMsg H)

structure NetworkAction (H : Type) where
  nodeID : String
  action : NodeAction H

instance : Inhabited (NetworkAction H) := ⟨"", .alarm⟩

def newNetwork : Network H where
  nodes := newNode
  sent := []

def postedVotes (posted : List (Posted H)) : List (VoteMsg H) :=
  posted.filterMap fun
    | .vote msg => some msg
    | _ => none

theorem mem_postedVotes {posted : List (Posted H)} {msg : VoteMsg H} :
    msg ∈ postedVotes posted ↔ .vote msg ∈ posted := by
  unfold postedVotes
  rw [List.mem_filterMap]
  constructor
  · rintro ⟨post, hmem, hpost⟩
    split at hpost
    · cases hpost
      exact hmem
    · cases hpost
  · intro hmem
    exact ⟨_, hmem, rfl⟩

namespace Network

def Reaches (byzantine : Option String) (net : Network H) (nodeID : String)
    (msg : VoteMsg H) : Prop :=
  msg.nodeID ∈ nodeIDs ∧ msg.nodeID ≠ nodeID ∧
    (byzantine = some msg.nodeID ∨ msg ∈ net.sent)

variable [DecidableEq H]

instance (byzantine : Option String) (net : Network H) (nodeID : String)
    (msg : VoteMsg H) : Decidable (net.Reaches byzantine nodeID msg) :=
  inferInstanceAs (Decidable (_ ∧ _))

def allowed (byzantine : Option String) (net : Network H) (a : NetworkAction H) : Bool :=
  match a.action with
  | .entrance (.vote msg) => net.Reaches byzantine a.nodeID msg
  | _ => true

def step (digest : Option RequestMsg → H) (byzantine : Option String) (net : Network H)
    (a : NetworkAction H) : Option (Network H) :=
  if Honest byzantine a.nodeID ∧ net.allowed byzantine a ∧
      (net.nodes a.nodeID).crashed = false then
    ((net.nodes a.nodeID).act digest a.action).map fun acted =>
      { nodes := Function.update net.nodes a.nodeID acted.1
        sent := net.sent ++ postedVotes acted.2 }
  else none

end Network

abbrev NetworkRun (digest : Option RequestMsg → H) [DecidableEq H]
    (byzantine : Option String) :=
  Lib.Run (newNetwork : Network H) (Network.step digest byzantine)

namespace Network

variable [DecidableEq H] {digest : Option RequestMsg → H} {byzantine : Option String}

theorem step_cases {net net' : Network H} {a : NetworkAction H}
    (h : net.step digest byzantine a = some net') :
    ∃ node' posted, Honest byzantine a.nodeID ∧
      Node.Acted digest (net.nodes a.nodeID) a.action node' posted ∧
      (∀ msg, a.action = .entrance (.vote msg) → net.Reaches byzantine a.nodeID msg) ∧
      net'.nodes a.nodeID = node' ∧
      (∀ nodeID, nodeID ≠ a.nodeID → net'.nodes nodeID = net.nodes nodeID) ∧
      net'.sent = net.sent ++ postedVotes posted := by
  unfold step at h
  split at h
  · rename_i hguard
    obtain ⟨hhonest, hallowed, _⟩ := hguard
    obtain ⟨⟨node', posted⟩, hact, rfl⟩ := Option.map_eq_some_iff.mp h
    refine ⟨node', posted, hhonest, Node.act_acted hact, ?_, Function.update_self .., ?_, rfl⟩
    · intro msg haction
      simpa [allowed, haction] using hallowed
    · intro nodeID hnode
      exact Function.update_of_ne hnode _ _
  · cases h

end Network

end BlockchainTutorial.Pbft
