import ScopedTree.Edit.Replace
import ScopedTree.Proofs.Pass.Keeps

/-!
# Writing places

What parts of an edit keep that write comments, look fields up or move paths along.
-/

namespace ScopedTree.Tree

theorem Pathless.shiftEntries {P : Tree → Prop} (h : Pathless P) (owner : Option NodeId)
    (list : String) (start : Nat) (move : Nat → Nat) (except : Option PathId) :
    Stays P (Tree.shiftEntries owner list start move except) := by
  refine stays_modify fun t => h t _ (.foldl (fun t p => ?_) _ t)
  split
  · rfl
  · exact .updatePath t p _

theorem stays_shareComments {P : Tree → Prop} (h : ∀ t id (f : NodeComments → NodeComments), P t →
      P { t with arena := t.arena.update id fun n => { n with comments := f n.comments } })
    (p : PathId) : Stays P (shareComments p) := by
  unfold shareComments
  refine stays_get.bind fun t => ?_
  split
  · dsimp only
    split
    · exact stays_pure _
    · refine Stays.bind (stays_modify fun t => h t _ fun _ => {}) fun _ =>
        (stays_ofShape _).bind fun _ => ?_
      split
      · next before after _ _ =>
        refine stays_modify fun t' ht => ?_
        exact h _ after (fun c => { c with leading := c.leading ++ _ })
          (h t' before (fun c => { c with trailing := c.trailing ++ _ }) ht)
      · exact stays_pure _
  · exact stays_pure _

theorem stays_listField {P : Tree → Prop} (p : PathId) (key : String) :
    Stays P (listField p key) := by
  unfold listField
  refine (Charted.fieldOf p key).bind fun x => ?_
  split
  split
  · exact stays_pure _
  · exact stays_throw _

end ScopedTree.Tree
