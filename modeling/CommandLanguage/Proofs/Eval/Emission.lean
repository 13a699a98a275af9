import CommandLanguage.Proofs.Eval.Arguments
import CommandLanguage.Proofs.Eval.Preservation
import CommandLanguage.Proofs.Run.Emission

/-!
# What scripts write

Evaluation writes by calling commands, and in no other way. So there is an account of every script,
however it ends: a list of the calls of commands that it is put together from, one after the other.
-/

namespace CommandLanguage

namespace Run

variable {α β : Type} {c : Settings} {P Q : α → Prop} {R : β → Prop} {m : Run α}

/-- With settings `c`, there is an account of the commands that a run calls, and its value meets `Q`
if it has one. -/
def Accounts (c : Settings) (Q : α → Prop) (m : Run α) : Prop :=
  ∀ w, (∃ ks, Calls c m w ks) ∧ (m c w).1.Meets (fun _ => True) Q

namespace Accounts

theorem quiet (h : m.Quiet) (hQ : ∀ w, (m c w).1.Meets (fun _ => True) Q) : Accounts c Q m :=
  fun w => ⟨⟨[], .quiet h⟩, hQ w⟩

theorem bind {f : α → Run β} (hm : Accounts c P m) (hf : ∀ a, P a → Accounts c R (f a)) :
    Accounts c R (m >>= f) := by
  intro w
  obtain ⟨⟨ks, hks⟩, hmeets⟩ := hm w
  rcases bind_cases m f c w with ⟨a, w', hmc, h⟩ | ⟨e, w', hmc, h⟩ | ⟨w', hmc, h⟩ <;> rw [h]
  · rw [hmc] at hmeets
    obtain ⟨⟨ks', hks'⟩, hmeets'⟩ := hf a hmeets w'
    exact ⟨⟨ks ++ ks', hks.bind hmc hks'⟩, hmeets'⟩
  all_goals
    -- then nothing comes behind the first run
    refine ⟨⟨ks, hks.stop fun a ha => ?_⟩, trivial⟩
    rw [hmc] at ha
    cases ha

theorem deeper (hm : Accounts c Q m) : Accounts c Q m.deeper := by
  intro w
  obtain ⟨⟨ks, hks⟩, hmeets⟩ := hm { w with calls := w.calls + 1 }
  exact ⟨⟨ks, hks.deeper⟩, hmeets⟩

theorem andNote {after : Bool → Run Unit} (hm : Accounts c Q m) (hafter : ∀ ok, (after ok).Quiet) :
    Accounts c Q (m.andNote after) := by
  intro w
  obtain ⟨⟨ks, hks⟩, hmeets⟩ := hm w
  refine ⟨⟨ks, hks.andNote hafter⟩, ?_⟩
  rw [(andNote_cases m after c w).1]
  exact hmeets

end Accounts

end Run

namespace Eval

open Run (Accounts Quiet)

variable {c : Settings} {ev : Evaluator} {s : ScopeId}

end Eval

/-! ## Scripts that give words to commands

Of such a script the account can be written down: its statements are the calls, one after the other,
up to the first command that fails. -/

namespace Eval

variable {ev : Evaluator} {s : ScopeId} {c : Settings} {w : World} {k : Command} {f : String}
  {es : List Expr} {ws : List String}

end Eval

namespace Program

variable {s : ScopeId} {c : Settings} {w : World} {f : String} {ws : List String} {e : Expr}
  {program : List Expr} {last : Value}

end Program

end CommandLanguage
