import Sihd.Http.Navigator

/-!
# The guard

What the urls of a request are allowed to be, and what the history of a request is. The guard
does not know all internal addresses of IPv6, it does not look at the url that
`on_before_request` gives, and it refuses a redirect after the method was changed for it.
-/

namespace Sihd.Http

open Util Net

namespace Navigator

/-- A url of a host with an internal address. -/
def isInternalUrl (n : Navigator) (url : List UInt8) : Bool :=
  isInternalHost n.resolve (Url.parse url).host

/-- No internal url is requested, and the history is the list of the requests: the first, and
at most `max_redirects` that the policy accepts. -/
structure Guarded (n : Navigator) (startUrl : List UInt8) (s : Session) : Prop where
  tried : ∀ url ∈ s.tried, n.isInternalUrl url = false
  pending : s.phase = .running → n.isInternalUrl s.currentUrl = false
  running : s.phase = .running → s.history = s.tried ++ [s.currentUrl]
  ended : s.phase ≠ .running → s.history = s.tried
  policy : ∀ url ∈ s.history.tail, n.checkRedirectPolicy startUrl url = true
  redirects : s.history.length = s.redirects + 1
  count : s.redirects ≤ n.maxRedirects.toNat
  recorded : ∀ r, s.phase = .done r →
    r.redirectHistory = if 1 < s.tried.length then s.tried else []

section Exchange

variable {n : Navigator} {startUrl url : List UInt8} {s : Session} {sr : SingleResponse}

/-- What holds of a session once its url was requested. -/
structure Requested (n : Navigator) (startUrl : List UInt8) (s : Session) : Prop where
  phase : s.phase = .running
  tried : ∀ url ∈ s.tried, n.isInternalUrl url = false
  history : s.history = s.tried
  policy : ∀ url ∈ s.history.tail, n.checkRedirectPolicy startUrl url = true
  redirects : s.history.length = s.redirects + 1
  count : s.redirects ≤ n.maxRedirects.toNat

theorem Guarded.request (h : Guarded n startUrl s) (hrunning : s.phase = .running) :
    Requested n startUrl (request s) where
  phase := hrunning
  tried url hurl := by
    rcases List.mem_append.mp hurl with hurl | hurl
    · exact h.tried url hurl
    · rw [List.mem_singleton.mp hurl]
      exact h.pending hrunning
  history := h.running hrunning
  policy := h.policy
  redirects := h.redirects
  count := h.count

theorem Requested.downgrade (h : Requested n startUrl s) (sr : SingleResponse) :
    Requested n startUrl (downgrade s sr) := by
  rw [Navigator.downgrade]
  split
  · exact ⟨h.phase, h.tried, h.history, h.policy, h.redirects, h.count⟩
  · exact h

theorem Requested.failed (h : Requested n startUrl s) :
    Guarded n startUrl { s with phase := .failed } where
  tried := h.tried
  pending hrunning := by cases hrunning
  running hrunning := by cases hrunning
  ended _ := h.history
  policy := h.policy
  redirects := h.redirects
  count := h.count
  recorded _ hdone := by cases hdone

theorem Requested.finish (h : Requested n startUrl s) (sr : SingleResponse) :
    Guarded n startUrl (finish s sr) where
  tried := h.tried
  pending hrunning := by cases hrunning
  running hrunning := by cases hrunning
  ended _ := h.history
  policy := h.policy
  redirects := h.redirects
  count := h.count
  recorded r hdone := by
    cases hdone
    dsimp only
    rw [h.history]
    rfl

end Exchange

section Runs

variable {n : Navigator} {startUrl method : List UInt8}

/-- A `302` to a url. -/
def foundResponse (url : List UInt8) : SingleResponse :=
  ⟨true, false, 302, UnorderedMap.empty, url, []⟩

def found (url : List UInt8) : Exchange := ⟨fun _ => foundResponse url, false, foundResponse url⟩

end Runs

end Navigator

end Sihd.Http
