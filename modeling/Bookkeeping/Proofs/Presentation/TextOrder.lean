import Bookkeeping.Presentation.Text
import Bookkeeping.Proofs.Decimal.FundText
import Bookkeeping.Proofs.Presentation.SiblingOrder
import Bookkeeping.Proofs.Subtotal.Alike

set_option autoImplicit false

/-! # Texts of subtotals that are alike

A text shows keys, values and dates, and siblings stand in the order of their keys. So subtotals
that are alike are written alike, as long as only equal keys compare as equal. -/

namespace Bookkeeping.Presentation

open Subtotal (Level Tree Visit)

variable {s : Presentation} {names : AccountNames}

/-- What depends on a projection only is the same for lists with the same projections. -/
theorem map_eq_of_map_eq {α β κ : Type} {p : α → κ} {f g : α → β} {l others : List α}
    (h : l.map p = others.map p) (hf : ∀ a ∈ l, ∀ b ∈ others, p a = p b → f a = g b) :
    l.map f = others.map g := by
  induction l generalizing others with
  | nil =>
      cases others with
      | nil => rfl
      | cons b more => cases h
  | cons a rest ih =>
      cases others with
      | nil => cases h
      | cons b more =>
          obtain ⟨hfirst, hrest⟩ := List.cons.inj h
          rw [List.map_cons, List.map_cons, hf a List.mem_cons_self b List.mem_cons_self hfirst,
            ih hrest fun x hx y hy =>
              hf x (List.mem_cons_of_mem a hx) y (List.mem_cons_of_mem b hy)]

theorem groupLine_eq (names : AccountNames) {t other : Tree} (h : t.SameValues other)
    (title : Option Int32) (depth : Nat) (level : Option Level) (below : Subtotal.Below) :
    groupLine names title ⟨t, depth, level, below⟩ =
      groupLine names title ⟨other, depth, level, below⟩ := by
  unfold groupLine Visit.label
  dsimp only
  rw [Decimal.fundText_eq, Decimal.fundText_eq, h.key_eq, h.fund_eq]

theorem readingLine_eq {v w : Visit} {r q : Reading} (hdepth : v.depth = w.depth)
    (h : r.value = q.value) (interval : Granularity) :
    readingLine v r interval = readingLine w q interval := by
  obtain ⟨hdate, hvalue⟩ := Prod.mk.inj h
  unfold readingLine
  rw [Decimal.fundText_eq, Decimal.fundText_eq, hdepth, hdate, hvalue]

/-- The lines of groups that are alike. -/
theorem runFrom_textWalk_eq [Std.TransCmp s.collation] [Std.LawfulEqCmp s.collation]
    {interval : Option Granularity} {levels : List Level} {t other : Tree}
    (h : t.Alike levels.length other) (title : Option Int32) (depth : Nat) (level : Option Level)
    (below : Subtotal.Below) :
    (s.textWalk names).runFrom interval levels title ⟨t, depth, level, below⟩ =
      (s.textWalk names).runFrom interval levels title ⟨other, depth, level, below⟩ := by
  induction levels generalizing t other title depth level below with
  | nil =>
      have hline := groupLine_eq names h.sameValues title depth level below
      cases interval with
      | none => exact congrArg (fun line => [line]) hline
      | some g =>
          rw [Subtotal.Walk.runFrom_readings, Subtotal.Walk.runFrom_readings]
          have hlines := map_eq_of_map_eq h.sameValues.readings_eq
            (f := fun r => (s.textWalk names).reading title ⟨t, depth, level, below⟩ r g)
            (g := fun r => (s.textWalk names).reading title ⟨other, depth, level, below⟩ r g)
            fun a _ b _ hab => congrArg (fun line => [line]) (readingLine_eq rfl hab g)
          rw [hlines]
          exact congrArg (· :: _) hline
  | cons next rest ih =>
      have hline := groupLine_eq names h.sameValues title depth level below
      obtain ⟨_, _, hkeys, hchildren⟩ := h
      rw [Subtotal.Walk.runFrom_cons, Subtotal.Walk.runFrom_cons]
      have hblocks := map_eq_of_map_eq (Subtotal.map_key_inOrder s.compareKeys hkeys)
        (f := (s.textWalk names).ofChild interval next rest title depth)
        (g := (s.textWalk names).ofChild interval next rest title depth) ?_
      · show groupLine names title _ :: List.flatten _ = groupLine names title _ :: List.flatten _
        rw [hline]
        exact congrArg (fun blocks => _ :: List.flatten blocks) hblocks
      · intro a ha b hb hab
        have ha := (Subtotal.inOrder_perm s.compareKeys t.children).mem_iff.1 ha
        have hb := (Subtotal.inOrder_perm s.compareKeys other.children).mem_iff.1 hb
        show (s.textWalk names).runFrom interval rest (titleBelow title a.key) _ =
          (s.textWalk names).runFrom interval rest (titleBelow title b.key) _
        rw [hab]
        exact ih (hchildren a ha b hb hab) _ _ _ _

/-- Subtotals that are alike have the same text. -/
theorem text_eq_of_alike [Std.TransCmp s.collation] [Std.LawfulEqCmp s.collation]
    {spec : Subtotal.Spec} {t other : Tree} (h : t.Alike spec.effectiveLevels.length other) :
    s.text names spec t = s.text names spec other := by
  unfold text textLines Subtotal.Walk.run
  dsimp only
  rw [runFrom_textWalk_eq h]

end Bookkeeping.Presentation
