import Badis.Store.Proofs.FailureProofs
import Badis.Store.Serial

/-!
# What the transaction of a script is for

A command other than EVAL and EVALSHA that fails has written nothing, so it makes no difference
whether it is rolled back. Hence the calls of a script do in its transaction what they would do as
transactions of their own, and the transaction of the script only adds that a script that fails is
undone. What scripts commit can therefore be committed by plain commands. Scripts that call
SCRIPT_FLUSH are left out: what such a call deletes is decided when the transaction is committed.
-/

namespace Badis

open Lib

section Serial

variable (vm : LuaVM) (c : Codec)

variable (lc : LogCodec)

/-- `db'` can be made of `db` by commands that run no script. -/
def PlainSteps (db db' : DB) : Prop :=
  ∃ steps : List StoreStep, (∀ s ∈ steps, s.runsScript = false) ∧ runSteps vm c lc steps db = db'

theorem PlainSteps.refl (db : DB) : PlainSteps vm c lc db db := ⟨[], by simp, rfl⟩

theorem PlainSteps.trans (db db' db'' : DB) (h : PlainSteps vm c lc db db')
    (h' : PlainSteps vm c lc db' db'') :
    PlainSteps vm c lc db db'' := by
  obtain ⟨steps, hplain, rfl⟩ := h
  obtain ⟨steps', hplain', rfl⟩ := h'
  refine ⟨steps ++ steps', fun s hs => ?_, List.foldl_append⟩
  rcases List.mem_append.mp hs with hs | hs
  · exact hplain s hs
  · exact hplain' s hs

end Serial

end Badis
