import Mathlib.Computability.Language
import Seedling.Regex.Basic

/-!
The words that an expression stands for. Operators have their usual meaning; a tag has none, and a
complement is taken among all words.
-/

namespace Seedling.Regex

def language : Regex → Language UInt8
  | .literal bs => {bs}
  | .range lo hi => {w | ∃ b, lo ≤ b ∧ b ≤ hi ∧ w = [b]}
  | .concat a b => a.language * b.language
  | .star a => KStar.kstar a.language
  | .or a b => a.language + b.language
  | .tag a _ => a.language
  | .not a => a.languageᶜ

@[simp] theorem mem_language_not {a : Regex} {w : List UInt8} :
    w ∈ language (.not a) ↔ w ∉ a.language := Iff.rfl

theorem append_mem_kstar {l : Language UInt8} {u v : List UInt8} (hu : u ∈ l)
    (hv : v ∈ KStar.kstar l) : u ++ v ∈ KStar.kstar l := by
  obtain ⟨words, rfl, hwords⟩ := Language.mem_kstar.1 hv
  refine Language.mem_kstar.2 ⟨u :: words, rfl, ?_⟩
  intro w hw
  rcases List.mem_cons.1 hw with rfl | hw
  · exact hu
  · exact hwords w hw

end Seedling.Regex
