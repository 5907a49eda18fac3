import Mathlib.Data.BitVec

/-!
# Following a partial function

`next` leads from a point to at most one other.  Following it stops, or goes round in a circle.  If it stops everywhere, it
does so after one more link exactly if the link does not close a circle (`stops_update_iff`).
-/

open Function

namespace AstralOS.Chase

variable {α : Type} {next next' : α → Option α} {a b c i : α}

/-- Following `next` comes to an end. -/
inductive Stops (next : α → Option α) : α → Prop
  | last {a : α} : next a = none → Stops next a
  | more {a b : α} : next a = some b → Stops next b → Stops next a

def Leads (next : α → Option α) : α → α → Prop := Relation.ReflTransGen fun a b => next a = some b

theorem Stops.of_le (h : Stops next a) (hle : ∀ a b, next' a = some b → next a = some b) : Stops next' a := by
  induction h with
  | @last a ha =>
    cases hn : next' a with
    | none => exact .last hn
    | some b => rw [hle a b hn] at ha; cases ha
  | @more a b ha _ ih =>
    cases hn : next' a with
    | none => exact .last hn
    | some c =>
      rw [hle a c hn] at ha
      exact .more (hn.trans ha) ih

theorem Stops.not_circle (h : Stops next a) (hab : next a = some b) : ¬Leads next b a := by
  induction h generalizing b with
  | last ha => rw [hab] at ha; cases ha
  | more ha _ ih =>
    obtain rfl : _ = b := Option.some.inj (ha.symm.trans hab)
    intro hba
    rcases Relation.ReflTransGen.cases_head hba with rfl | ⟨d, hbd, hda⟩
    · exact ih hab .refl
    · exact ih hbd (hda.tail hab)

variable [DecidableEq α]

theorem Stops.update (h : Stops next a) (hi : ¬Leads next a i) (o : Option α) : Stops (update next i o) a := by
  induction h with
  | @last a ha =>
    have hai : a ≠ i := fun h => hi (by rw [h]; exact .refl)
    exact .last (by rwa [update_of_ne hai])
  | @more a b ha _ ih =>
    have hai : a ≠ i := fun h => hi (by rw [h]; exact .refl)
    exact .more (by rwa [update_of_ne hai]) (ih fun h => hi (h.head ha))

theorem stops_update_iff (hs : ∀ a, Stops next a) (hi : next i = none) :
    (∀ a, Stops (update next i (some c)) a) ↔ ¬Leads next c i := by
  constructor
  · intro h hci
    -- the way from `c` to `i` does not go through `i`, so it is still there
    refine (h i).not_circle (update_self ..) (Relation.ReflTransGen.mono (fun a b hab => ?_) c i hci)
    rwa [update_of_ne fun h => by rw [h, hi] at hab; cases hab]
  · intro hci a
    induction hs a with
    | @last a ha =>
      by_cases hai : a = i
      · exact .more (by rw [hai, update_self]) ((hs c).update hci _)
      · exact .last (by rwa [update_of_ne hai])
    | more ha _ ih => exact .more (by rwa [update_of_ne fun h => by rw [h, hi] at ha; cases ha]) ih

end AstralOS.Chase
