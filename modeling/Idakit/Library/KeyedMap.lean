import Mathlib.Logic.Function.Basic

/-!
A map that is kept under other keys than the caller's. Each key of the caller
is encoded, or stands for nothing that can be kept. What was last written to a
key is read under it, whatever was done before, just where the keys in use are
told apart by their encodings.
-/

namespace Idakit.Library

variable {κ κ' ν : Type}

inductive MapEdit (κ ν : Type)
  | put (key : κ) (value : ν)
  | remove (key : κ)
  | clear

/-- What was last written to a key since its last removal; the last change is
first. -/
def lastWritten [DecidableEq κ] (key : κ) : List (MapEdit κ ν) → Option ν
  | [] => none
  | .put k value :: edits => if k = key then some value else lastWritten key edits
  | .remove k :: edits => if k = key then none else lastWritten key edits
  | .clear :: _ => none

/-- The change of the map that keeps the encoded keys. -/
def MapEdit.apply [DecidableEq κ'] (encode : κ → Option κ') (map : κ' → Option ν) :
    MapEdit κ ν → κ' → Option ν
  | .put key value => (encode key).elim map fun k => Function.update map k (some value)
  | .remove key => (encode key).elim map fun k => Function.update map k none
  | .clear => fun _ => none

def readAt (encode : κ → Option κ') (map : κ' → Option ν) (key : κ) : Option ν :=
  (encode key).bind map

def MapEdit.Within (encode : κ → Option κ') (keys : Set κ) : MapEdit κ ν → Prop
  | .put key _ => key ∈ keys ∧ (encode key).isSome
  | .remove key => key ∈ keys
  | .clear => True

/-- Different keys, of those that can be kept, have different encodings. -/
def Separates (encode : κ → Option κ') (keys : Set κ) : Prop :=
  ∀ key ∈ keys, ∀ key' ∈ keys, (encode key).isSome → encode key = encode key' → key = key'

section

variable [DecidableEq κ] [DecidableEq κ'] {encode : κ → Option κ'} {keys : Set κ}
  {map : κ' → Option ν} {edits : List (MapEdit κ ν)} {edit : MapEdit κ ν}

/-- The step of the refinement: one more edit keeps the map in step with what
was last written. -/
theorem readAt_apply (hsep : Separates encode keys) (hedit : edit.Within encode keys)
    (hread : ∀ key ∈ keys, readAt encode map key = lastWritten key edits) :
    ∀ key ∈ keys, readAt encode (edit.apply encode map) key = lastWritten key (edit :: edits) := by
  intro key hkey
  have hbefore := hread key hkey
  -- Another key has another encoding, so that a change there is not seen here.
  have hother {key' : κ} {k : κ'} (hk : encode key' = some k) (hkey' : key' ∈ keys)
      (hne : key' ≠ key) (value : Option ν) :
      readAt encode (Function.update map k value) key = readAt encode map key := by
    unfold readAt
    cases hencode : encode key with
    | none => rfl
    | some k' =>
        have hdiff : k' ≠ k := by
          rintro rfl
          exact hne (hsep key' hkey' key hkey (by simp [hk]) (hk.trans hencode.symm))
        simp [Function.update_of_ne hdiff]
  have hsame {k : κ'} (hk : encode key = some k) (value : Option ν) :
      readAt encode (Function.update map k value) key = value := by
    simp [readAt, hk]
  cases edit with
  | put key' value =>
      obtain ⟨hkey', hsome⟩ := hedit
      obtain ⟨k, hk⟩ := Option.isSome_iff_exists.mp hsome
      simp only [MapEdit.apply, hk, Option.elim_some, lastWritten]
      by_cases heq : key' = key
      · subst heq
        rw [hsame hk, if_pos rfl]
      · rw [hother hk hkey' heq, if_neg heq, hbefore]
  | remove key' =>
      simp only [MapEdit.apply, lastWritten]
      cases hk : encode key' with
      | none =>
          rw [Option.elim_none, hbefore]
          split
          · rename_i heq
            subst heq
            rw [← hbefore, readAt, hk]
            rfl
          · rfl
      | some k =>
          rw [Option.elim_some]
          by_cases heq : key' = key
          · subst heq
            rw [hsame hk, if_pos rfl]
          · rw [hother hk hedit heq, if_neg heq, hbefore]
  | clear =>
      simp only [MapEdit.apply, lastWritten, readAt]
      cases encode key <;> rfl

end

end Idakit.Library
