import Geminon.Lifespan
import Geminon.Configure

namespace Geminon
open Memory Descriptors Process LinkedList
set_option autoImplicit true

structure SameLimits (s s' : Serving) : Prop where
  requests : s'.server.requests = s.server.requests
  maxRequests : s'.server.maxRequests = s.server.maxRequests

theorem SameLimits.refl (s : Serving) : SameLimits s s := ⟨rfl, rfl⟩

theorem SameLimits.trans (h : SameLimits s s₁) (h' : SameLimits s₁ s₂) : SameLimits s s₂ :=
  ⟨h'.requests.trans h.requests, h'.maxRequests.trans h.maxRequests⟩

end Geminon
