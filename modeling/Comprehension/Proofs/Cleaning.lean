import Comprehension.Normalize.References
import Comprehension.Proofs.Footprint
import Comprehension.Proofs.Program
import Comprehension.Proofs.TreePass

/-! Cleaning a store cleans the trees in it: stripping references below the root of a layout leaves the
cleaned layout in the same slots, those of the stripped targets apart. -/

set_option autoImplicit false

namespace Comprehension.Normalize
open Program Store

variable {transparent : Name → Bool} {s : Store} {m : NodeId} {k : Kind Name Layout}

theorem plainReference?_eq (holds : s.Holds (.node m k)) : plainReference? transparent s m =
    .ok ((plainLayer? transparent k).map (Kind.map id Marked.mark)) := by
  obtain ⟨here, children⟩ := holds_node.mp holds
  rw [plainReference?, kind_eq_ok_iff.mpr here]
  cases k with
  | member target x typeArgs =>
    obtain ⟨tm, tk⟩ := target
    have target := (children (.node tm tk) List.mem_cons_self).kind?
    simp only [Marked.mark_node, Marked.cell_node] at target
    simp only [Kind.map, Marked.mark_node, bind, Except.bind, kind_eq_ok_iff.mpr target]
    cases tk with
    | ident t args =>
      by_cases known : transparent t
      · simp [plainLayer?, known, Kind.map]
        rfl
      · simp [plainLayer?, known]
        rfl
    | _ => rfl
  | _ => rfl

/-- An access that becomes an identifier keeps its slot and its type arguments. -/
theorem Rewrites.plain {plain : Kind Name Layout} (forest : s.Forest [.node m k])
    (found : plainLayer? transparent k = some plain) :
    Rewrites s [.node m k] (s.put m (plain.map id Marked.mark)) [.node m plain] := by
  obtain ⟨target, x, typeArgs, rfl, rfl⟩ := plainLayer?_eq_some found
  refine Rewrites.put forest (.ident x typeArgs) (fun c child => ?_) ?_
  · exact Marked.mem_subtrees_of_child (List.mem_cons_of_mem _ child)
  · exact (List.sublist_append_right _ _).subperm

theorem stripReferences_run {l : Layout} {budget : Nat} (forest : s.Forest [l])
    (enough : l.marks.length ≤ budget) :
    ∃ s', stripReferences transparent budget l.mark s = .ok (cleaned transparent l).2 s' ∧
      s'.size = s.size ∧ Rewrites s [l] s' [(cleaned transparent l).1] := by
  induction l using Marked.induction generalizing s budget with
  | step m k ih =>
    obtain ⟨budget, rfl⟩ : ∃ b, budget = b + 1 :=
      Nat.exists_eq_add_one.mpr (Marked.length_marks_pos.trans_le enough)
    -- The children one after the other, in a store that changes under them.
    have children : ∀ (ls : List Layout) (s : Store), (∀ c ∈ ls, c ∈ k.children) → s.Forest ls →
        ∃ s', (ls.map Marked.mark).mapM (stripReferences transparent budget) s =
          .ok (ls.map fun c => (cleaned transparent c).2) s' ∧ s'.size = s.size ∧
            Rewrites s ls s' (ls.map fun c => (cleaned transparent c).1) := by
      intro ls
      induction ls with
      | nil => exact fun s _ forest => ⟨s, rfl, rfl, .refl forest⟩
      | cons c ls tail =>
        intro s inside forest
        have child : c ∈ k.children := inside c List.mem_cons_self
        have fits : c.marks.length ≤ budget := Nat.le_of_lt_succ ((Marked.length_marks_lt child).trans_le enough)
        obtain ⟨s₁, done, size, first⟩ := ih c child forest.head fits
        obtain ⟨s₂, done', size', rest⟩ := tail s₁ (fun d member => inside d (List.mem_cons_of_mem _ member))
          (Rewrites.forest_tail forest first)
        exact ⟨s₂, mapM_cons_ok done done', size'.trans size, Rewrites.cons forest first rest⟩
    obtain ⟨s₁, below, size, change⟩ := children k.children s (fun _ => id) forest.children
    have change := Rewrites.node forest change
    rw [Kind.refill_map] at change
    have here := (holds_node.mp forest.holds_single).1
    rw [stripReferences, Marked.mark_node, bind_ok (read_ok (children_eq here)), bind_ok below,
      bind_ok (read_ok (plainReference?_eq change.forest.holds_single)), cleaned_node_fst, cleaned_node_snd]
    cases found : plainLayer? transparent (k.map id fun c => (cleaned transparent c).1) with
    | none => exact ⟨s₁, rfl, size, change⟩
    | some plain =>
      exact ⟨_, rfl, (size_put ..).trans size, change.trans (Rewrites.plain change.forest found)⟩

end Comprehension.Normalize
