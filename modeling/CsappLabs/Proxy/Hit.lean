/-
# What a hit sends

`doit` of `proxylab/proxy.c` looks a url up without a lock and enters the
reader section afterwards.  From the reader entry to the send no writer comes
in (`Locked.sharing_eq_zero`), so the line a hit sends is the line found, as
long as nobody replaced it between the lookup and the entry
(`hit_serves_url`).  `find_cache_hit` outside the section leaves that gap open:
a writer that chose its line earlier can put another url there
(`hit_serves_other_url`).
-/

import CsappLabs.Proxy.Worker

namespace CsappLabs
namespace Proxy

open Lib

namespace WorkerPc

/-- What a worker has looked up, until it sends it. -/
def looked : WorkerPc → Option (Fin CACHE_LINE × List UInt8)
  | enter idx url | countIn idx url | first idx url | entered idx url | send idx url =>
      some (idx, url)
  | _ => none

/-- What a worker has looked up without holding `writer` for reading yet. -/
def pending : WorkerPc → Option (Fin CACHE_LINE × List UInt8)
  | enter idx url | countIn idx url | first idx url => some (idx, url)
  | _ => none

end WorkerPc

variable {τ : Type*} [DecidableEq τ] {s s' : CacheState τ} {t : τ}

/-- Every send sends an object stored for the url that was looked up. -/
def HitServes (s : CacheState τ) : Prop :=
  ∀ t idx url, s.worker t = .send idx url →
    ∃ w ∈ s.writes, w.url = url ∧ Stores (s.line idx) w

/-- The step does not put another url into a line that some worker has looked up
and not locked yet. -/
def LeavesLookups (s : CacheState τ) : CacheStep τ → Prop
  | .run t =>
      match s.worker t with
      | .store (some i) w => ∀ u, ∀ p ∈ (s.worker u).pending, p.1 = i → p.2 = w.url
      | _ => True
  | _ => True

instance [Fintype τ] : DecidablePred (LeavesLookups s) := fun i => by
  unfold LeavesLookups
  split
  · split <;> infer_instance
  · infer_instance

/-- Valid lines store executed writes, and the lines looked up hold their urls. -/
structure Served (s : CacheState τ) : Prop where
  stored : ∀ i, (s.line i).valid = true → ∃ w ∈ s.writes, Stores (s.line i) w
  looked : ∀ t i url, (s.worker t).looked = some (i, url) →
    (s.line i).valid = true ∧ (s.line i).url = url

/-- A worker goes on without touching the lines, taking no new lookup along. -/
theorem Served.move (h : Served s) {x : WorkerPc}
    (hw : s'.worker = Function.update s.worker t x) (hl : s'.line = s.line)
    (hwr : s'.writes = s.writes)
    (hx : ∀ i url, x.looked = some (i, url) → (s.worker t).looked = some (i, url)) :
    Served s' := by
  refine ⟨fun i hi => ?_, fun u i url hu => ?_⟩
  · rw [hl, hwr] at *
    exact h.stored i hi
  · rw [hl]
    rw [hw] at hu
    by_cases hut : u = t
    · rw [hut, Function.update_self] at hu
      exact h.looked t i url (hx i url hu)
    · rw [Function.update_of_ne hut] at hu
      exact h.looked u i url hu

/-- **The store keeps what the others looked up.**  A worker past its reader
entry holds the writer out, and one in front of it looked up the same url. -/
theorem Served.store [Fintype τ] (h : Served s) (hL : Locked s) {idx : Option (Fin CACHE_LINE)}
    {w : WriteCall} (ht : s.worker t = .store idx w) (hok : LeavesLookups s (.run t)) :
    Served ({ s with
      toCache := writeLine s.toCache idx w
      writes := s.writes ++ [w] }.goto t .vWriter) := by
  refine ⟨fun i hi => ?_, fun u i url hu => ?_⟩
  · simp only [CacheState.goto] at hi ⊢
    by_cases hidx : idx = some i
    · subst hidx
      exact ⟨w, by simp, stores_writeLine s.toCache i w⟩
    · rw [writeLine_line_of_ne hidx] at hi ⊢
      obtain ⟨v, hv, hst⟩ := h.stored i hi
      exact ⟨v, by simp [hv], hst⟩
  · simp only [CacheState.goto] at hu ⊢
    by_cases hut : u = t
    · rw [hut, Function.update_self] at hu
      exact absurd hu (by simp [WorkerPc.looked])
    · rw [Function.update_of_ne hut] at hu
      by_cases hidx : idx = some i
      · subst hidx
        have hsh := hL.sharing_eq_zero (t := t) (by rw [ht]; rfl) u
        have hpend : (s.worker u).pending = some (i, url) := by
          cases hp : s.worker u <;> simp_all [WorkerPc.looked, WorkerPc.pending]
        simp only [LeavesLookups, ht] at hok
        have hst := stores_writeLine s.toCache i w
        exact ⟨hst.valid, hst.url.trans (hok u _ hpend rfl).symm⟩
      · rw [writeLine_line_of_ne hidx]
        exact h.looked u i url hu

/-- **A line of a worker keeps the lookups served.** -/
theorem Served.workerNext [Fintype τ] (h : Served s) (hL : Locked s)
    (hok : LeavesLookups s (.run t)) (hn : workerNext s t = some s') : Served s' := by
  have hr := runs_of_workerNext hn
  generalize ht : s.worker t = x at hr
  cases hr with
  | hit hfind =>
    refine ⟨h.stored, fun u i url' hu => ?_⟩
    simp only [CacheState.goto] at hu ⊢
    by_cases hut : u = t
    · rw [hut, Function.update_self] at hu
      obtain ⟨rfl, rfl⟩ := Prod.mk.inj (Option.some.inj hu)
      exact findCacheHit_spec hfind
    · rw [Function.update_of_ne hut] at hu
      exact h.looked u i url' hu
  | store => exact h.store hL ht hok
  | enter | countIn | first | entered =>
    exact h.move rfl rfl rfl fun i url hx => by rw [ht]; exact hx
  | miss | send | leave | countOut | last | left | drop | scan | pWriter | vWriter =>
    exact h.move rfl rfl rfl fun i url hx => by simp [WorkerPc.looked] at hx

/-- The lookups are served in every state reached without replacing a line that
is looked up and not locked yet. -/
theorem served_of_reachBy [Fintype τ] (h : (cacheSystem τ).ReachBy LeavesLookups s) :
    Served s := by
  refine h.induct (P := Served) ?_ ?_
  · rintro s rfl
    exact ⟨fun i hi => absurd hi (by simp [cacheStart, cacheInit]),
      fun t i url ht => absurd ht (by simp [cacheStart, WorkerPc.looked])⟩
  · intro s i s' hr hS hok hn
    cases i with
    | request t url =>
      simp only [cacheSystem, Option.ite_none_right_eq_some] at hn
      obtain rfl := Option.some.inj hn.2
      exact hS.move rfl rfl rfl fun i url hx => by simp [WorkerPc.looked] at hx
    | reply t chunks =>
      simp only [cacheSystem] at hn
      split at hn
      · obtain rfl := Option.some.inj hn
        exact hS.move rfl rfl rfl fun i url hx => by simp [WorkerPc.looked] at hx
      · exact absurd hn (by simp)
    | run t => exact hS.workerNext (locked_of_reach hr.reach) hok hn

/-- **A hit serves the requested object**, in every run in which no store puts
another url into a line that a worker has looked up and not locked yet. -/
theorem hit_serves_url [Fintype τ] (h : (cacheSystem τ).ReachBy LeavesLookups s) :
    HitServes s := by
  have hS := served_of_reachBy h
  intro t idx url ht
  obtain ⟨hv, hurl⟩ := hS.looked t idx url (by rw [ht]; rfl)
  obtain ⟨w, hw, hst⟩ := hS.stored idx hv
  exact ⟨w, hw, hst.url.symm.trans hurl, hst⟩

/-- Worker `0` stores an object and worker `1` is about to send it. -/
def servedHit : CacheState (Fin 2) :=
  ((cacheSystem (Fin 2)).runBy LeavesLookups (cacheStart (Fin 2))
    [.request w₀ [117], .run w₀, .reply w₀ [[1]], .run w₀, .run w₀, .run w₀, .run w₀,
      .request w₁ [117], .run w₁, .run w₁, .run w₁, .run w₁, .run w₁]).getD (cacheStart (Fin 2))

theorem hit_serves_url_servedHit :
    servedHit.worker 1 = .send 0 [117] ∧ HitServes servedHit :=
  ⟨by decide, hit_serves_url (System.ReachBy.getD_runBy (.init rfl) _)⟩

/-- Worker `0` chooses line `0` for the url `v`, worker `1` stores the url `u`
there, worker `2` looks `u` up, worker `0` stores `v`, and worker `2` enters the
reader section: it is about to send the object of `v`. -/
def swappedLine : CacheState (Fin 3) :=
  ((cacheSystem (Fin 3)).run (cacheStart (Fin 3))
    [.request 0 [118], .run 0, .reply 0 [[2]], .run 0,
      .request 1 [117], .run 1, .reply 1 [[1]], .run 1, .run 1, .run 1, .run 1,
      .request 2 [117], .run 2,
      .run 0, .run 0, .run 0,
      .run 2, .run 2, .run 2, .run 2]).getD (cacheStart (Fin 3))

/-- **A hit can serve another url.** -/
theorem hit_serves_other_url :
    (cacheSystem (Fin 3)).Reach swappedLine ∧ swappedLine.worker 2 = .send 0 [117] ∧
      (swappedLine.line 0).url = [118] ∧ ¬HitServes swappedLine := by
  refine ⟨System.Reach.getD_run (.init rfl) _, by decide, by decide, fun h => ?_⟩
  obtain ⟨w, -, hw, hst⟩ := h 2 0 [117] (by decide)
  have hurl : (swappedLine.line 0).url = [118] := by decide
  rw [hst.url, hw] at hurl
  exact absurd hurl (by decide)

end Proxy
end CsappLabs
