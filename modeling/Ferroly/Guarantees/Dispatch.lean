import Ferroly.Lemmas.RouterDispatch

/-!
# Dispatch

Which of the application's functions answers a request, and what the answer says where none does.
-/

namespace Ferroly.Turbo

open Http

variable {σ : Type}

end Ferroly.Turbo
