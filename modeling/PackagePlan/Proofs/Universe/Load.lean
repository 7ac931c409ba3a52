import PackagePlan.Proofs.Package.Database
import PackagePlan.Proofs.Sequence
import PackagePlan.Universe.Load

/-! # Databases of universes

Loading a universe adds its ids and sets one after the other.
-/

namespace PackagePlan.Universe

open Database

variable {u : Universe} {db : Database}

theorem addEntry_built {version dependencies : String} {id : Version → PackageId}
    (h : db.Built) : Ensures (addEntry db version id dependencies) Built fun _ => True := by
  refine ensures_of_ok fun db' h' => ?_
  obtain ⟨v, -, h'⟩ := bind_eq_ok_iff.1 h'
  obtain ⟨tree, -, h'⟩ := bind_eq_ok_iff.1 h'
  cases h'
  exact h.insert _ _

theorem addSet_built {set : String × List String} (h : db.Built) :
    Ensures (addSet db set) Built fun _ => True := by
  refine ensures_of_ok fun db' h' => ?_
  obtain ⟨rs, -, h'⟩ := bind_eq_ok_iff.1 h'
  cases h'
  exact h.insertSet _ _

theorem load_built (h : u.load = .ok db) : db.Built := by
  refine Ensures.of_ok (E := fun _ => True) ?_ h
  refine Ensures.bind (P := Built) ?_ fun db₁ h₁ => Ensures.bind (P := Built) ?_ fun db₂ h₂ => ?_
  · exact Ensures.foldlM (fun e _ db hdb => addEntry_built hdb) .empty
  · exact Ensures.foldlM (fun e _ db hdb => addEntry_built hdb) h₁
  · exact Ensures.foldlM (fun e _ db hdb => addSet_built hdb) h₂

end PackagePlan.Universe
