import CurrencyConverter.Grpc.Provenance

/-!
# Dates of the latest rates

A conversion looks up, fetches and puts in separate steps, so an older answer of
the provider can be put after a newer one.  Short of that the dates of later
conversions never go back.
-/

namespace CurrencyConverter

open AtomicProgram CoherentCache

variable {D : Type}

/-- Thread `i` has answered a conversion for `q` with a rate of this date. -/
def Answered (log : Log D) (i : ℕ) (q : Query .latestRate) (date : Str) (before : Log D) : Prop :=
  ∃ r response, requestOf i before = some (.convert r) ∧ r.pair = q ∧
    response.rateDate = date ∧ .responded i (.ok (.convert response)) :: before <:+ log

section Runs

variable [Double D] {limits : Limits} {schedule : Schedule D} {l : Log D} {i : ℕ}

end Runs

/-! ## An older answer put after a newer one -/

end CurrencyConverter
