import OsProj.History

/-! Runs through which values pass in order. Where every step keeps the balance between what
comes in, what is inside and what goes out, so does the whole run. -/
namespace OsProj.Channel

open OsProj.History

def values (f : E → List V) : List E → List V
  | [] => []
  | e :: h => values f h ++ f e

/-- What is inside leaves in front of what comes in. -/
def Conserved (inside : List V) (came left : List V) (inside' : List V) : Prop := inside ++ came = left ++ inside'

theorem conserved_idle (inside : List V) : Conserved inside [] [] inside := List.append_nil _

theorem conserved_enter (inside came : List V) : Conserved inside came [] (inside ++ came) := rfl

theorem conserved_leave (left inside : List V) : Conserved (left ++ inside) [] left inside := List.append_nil _

theorem conserved_trans {inside inside' inside'' came came' left left' : List V} (first : Conserved inside came left inside')
    (second : Conserved inside' came' left' inside'') : Conserved inside (came ++ came') (left ++ left') inside'' := by
  unfold Conserved at *
  rw [← List.append_assoc,first,List.append_assoc,second,List.append_assoc]

section
variable {step : List E → S → E → S → Prop} {origin : S}

/-- What came in is what went out followed by what is inside. -/
theorem conserved (came left : E → List V) (inside : S → List V)
    (kept : ∀ h s e s', Path step [] origin h s → step h s e s' → Conserved (inside s) (came e) (left e) (inside s'))
    (path : Path step [] origin h s) : Conserved (inside origin) (values came h) (values left h) (inside s) := by
  induction path with
  | refl => exact conserved_idle _
  | snoc front last ih => exact conserved_trans ih (kept _ _ _ _ front last)

end

end OsProj.Channel
