import Statute.Lifecycle.Settlement

/-!
# The evidence for a stop

What the goroutine of an owned stop relies on at each point of its attempt (`Stop.Knows`), what the
flags of the stop record (`Stop.Evident`), and what follows for whole runs (`stop_evidence`):
`StopContainer` is called only for a stop whose record is durable, and a stop goes away only after its
record was deleted, on a result that no ambiguous answer puts in doubt.
-/

namespace Statute.Lifecycle

open Statute.Base

/-- The goroutine has an ambiguous answer that it has not applied yet. -/
def Runner.doubting : Runner → Bool
  | .marking | .applying .ambiguous => true
  | _ => false

namespace Stop

variable {stop : Stop} {runner next : Runner}

/-- A result to settle with: a rejection counts only where no answer was ambiguous. -/
def Final (stop : Stop) (result : StopResult) : Prop :=
  result ≠ .ambiguous ∧ (result = .rejected → stop.doubted = false)

/-- What the goroutine relies on at a point of its attempt. -/
def Knows (stop : Stop) : Runner → Prop
  | .reading | .applying _ => stop.persisted = true
  | .invoking | .calling | .marking => stop.persisted = true ∧ stop.terminal = false
  | .deleting _ result | .settling _ result _ => stop.terminal = true ∧ result = stop.result
  | .starting | .persisting | .putting _ | .committing _ | .deferring | .waiting | .finishing => True

/-- What the flags of a stop record. -/
structure Evident (stop : Stop) : Prop where
  persisted : stop.invoked = true → stop.persisted = true
  terminal : stop.terminal = true → stop.Final stop.result
  doubted : stop.doubted = true → stop.uncertain = true ∨ stop.runners.any Runner.doubting = true
  runner : ∀ runner ∈ stop.runners, stop.Knows runner

theorem knows_of_not_attempting (h : runner.attempting = false) : stop.Knows runner := by
  cases runner with
  | starting | waiting | finishing => trivial
  | persisting | putting | committing | deferring | reading | invoking | calling | marking | applying
  | deleting | settling => cases h

/-- A doubt that the goroutine does not carry is on record. -/
theorem Evident.uncertain (h : stop.Evident) (hrunners : stop.runners = [runner])
    (hsure : runner.doubting = false) (hdoubted : stop.doubted = true) : stop.uncertain = true := by
  rcases h.doubted hdoubted with huncertain | hdoubting
  · exact huncertain
  · simp [hrunners, hsure] at hdoubting

/-- The goroutine moves on, and the flags stay. -/
theorem Evident.move (h : stop.Evident) (hrunners : stop.runners = [runner])
    (hsure : runner.doubting = false) (issued : Bool) (hknows : stop.Knows next) :
    ({ stop with issued := issued, runners := [next] } : Stop).Evident where
  persisted := h.persisted
  terminal := h.terminal
  doubted hdoubted := Or.inl (h.uncertain hrunners hsure hdoubted)
  runner := List.forall_mem_singleton.2 hknows

end Stop

/-! ### One section -/

/-- Outside its convergence nothing is known about a stop but that its container was seen stopped. -/
theorem Tended.evident {s t : Option Stop} (h : Tended s t) (hs : ∀ stop ∈ s, stop.Evident ∧
      stop.issued = stop.runners.any Runner.attempting) :
    ∀ stop ∈ t, stop.Evident ∧ stop.issued = stop.runners.any Runner.attempting := by
  induction h with
  | refl => exact hs
  | wait _ wait ih =>
    rintro _ ⟨⟩
    obtain ⟨h, hissued⟩ := ih _ rfl
    exact ⟨⟨h.persisted, h.terminal, h.doubted, h.runner⟩, hissued⟩
  | ensure _ _ ih =>
    rintro _ ⟨⟩
    obtain ⟨h, hissued⟩ := ih _ rfl
    refine ⟨⟨h.persisted, h.terminal, fun hdoubted => ?_,
      List.forall_mem_append.2 ⟨h.runner, List.forall_mem_singleton.2 trivial⟩⟩, ?_⟩
    · exact (h.doubted hdoubted).imp_right fun hdoubting => by simp [hdoubting]
    · simp [hissued, Runner.attempting]
  | observed _ hidle ih =>
    rintro _ ⟨⟩
    obtain ⟨h, hissued⟩ := ih _ rfl
    refine ⟨⟨h.persisted, fun _ => ⟨by simp, by simp⟩, h.doubted, fun runner hrunner => ?_⟩, hissued⟩
    -- no attempt is out, so that no goroutine relies on the result
    have hnone := hissued.symm.trans hidle
    rw [List.any_eq_false] at hnone
    exact Stop.knows_of_not_attempting (Bool.eq_false_of_not_eq_true (hnone runner hrunner))

namespace Workload

variable {w w' : Workload} {env : Env} {stop : Stop}

theorem Converge.evident {runner : Runner} {next : RunnerStep} {effects : List Effect}
    (h : stop.Evident) (hrunners : stop.runners = [runner])
    (hstep : Converge env w stop runner next w' effects) : ∀ stop ∈ w'.stop, stop.Evident := by
  have hknows : stop.Knows runner := h.runner runner (by simp [hrunners])
  cases hstep with
  | begin => rintro _ ⟨⟩; exact h.move hrunners rfl true trivial
  | known hpersisted => rintro _ ⟨⟩; exact h.move hrunners rfl _ hpersisted
  | write | stored | unstored | retry | cease => rintro _ ⟨⟩; exact h.move hrunners rfl _ trivial
  | commit =>
    rintro _ ⟨⟩
    exact ⟨fun _ => rfl, h.terminal, fun hdoubted => Or.inl (h.uncertain hrunners rfl hdoubted),
      List.forall_mem_singleton.2 rfl⟩
  | defer | undeleted => rintro _ ⟨⟩; exact h.move hrunners rfl false trivial
  | reapply => rintro _ ⟨⟩; exact h.move hrunners rfl _ hknows
  | attempt hopen => rintro _ ⟨⟩; exact h.move hrunners rfl _ ⟨hknows, hopen⟩
  | invoke =>
    rintro _ ⟨⟩
    exact ⟨fun _ => hknows.1, h.terminal, fun hdoubted => Or.inl (h.uncertain hrunners rfl hdoubted),
      List.forall_mem_singleton.2 hknows⟩
  | doubt =>
    rintro _ ⟨⟩
    refine ⟨h.persisted, fun hterminal => ?_, fun _ => Or.inr rfl,
      List.forall_mem_singleton.2 hknows⟩
    exact absurd (hterminal.symm.trans hknows.2) (by simp)
  | answer => rintro _ ⟨⟩; exact h.move hrunners rfl _ hknows.1
  | mark =>
    rintro _ ⟨⟩
    exact ⟨h.persisted, h.terminal, fun _ => Or.inr rfl,
      List.forall_mem_singleton.2 hknows.1⟩
  | ambiguous =>
    rintro _ ⟨⟩
    exact ⟨h.persisted, h.terminal, fun _ => Or.inl rfl,
      List.forall_mem_singleton.2 trivial⟩
  | doubtful => rintro _ ⟨⟩; exact h.move hrunners rfl false trivial
  | @terminal result hresult hsure _ =>
    rintro _ ⟨⟩
    have hdoubted : stop.doubted = true → stop.uncertain = true :=
      h.uncertain hrunners (by cases result <;> simp_all [Runner.doubting])
    refine ⟨h.persisted, fun _ => ⟨hresult, fun hrejected => ?_⟩, fun hd => Or.inl (hdoubted hd),
      List.forall_mem_singleton.2 ⟨rfl, rfl⟩⟩
    exact Bool.eq_false_of_not_eq_true fun hd =>
      absurd ((hdoubted hd).symm.trans (hsure hrejected)) (by simp)
  | @recorded result hresult _ hterminal =>
    rintro _ ⟨⟩
    exact h.move hrunners (by cases result <;> simp_all [Runner.doubting]) _ ⟨hterminal, rfl⟩
  | delete => rintro _ ⟨⟩; exact h.move hrunners rfl _ hknows
  | settle result =>
    rw [stop_settleStopLocked]
    rintro _ ⟨⟩
  | finish =>
    rintro _ ⟨⟩
    exact ⟨h.persisted, h.terminal, fun hdoubted => Or.inl (h.uncertain hrunners rfl hdoubted),
      List.forall_mem_nil _⟩

theorem evident_step {a : Action} {effects : List Effect} (hw : w.Coherent) (hacc : w.Accounted)
    (h : ∀ stop ∈ w.stop, stop.Evident) (hstep : w.step env a = some (w', effects)) :
    ∀ stop ∈ w'.stop, stop.Evident := by
  cases stop_move hw hacc hstep with
  | tended htended =>
    exact fun stop hstop => (htended.evident
      (fun stop hstop => ⟨h stop hstop, (hw.stop stop hstop).issued⟩) stop hstop).1
  | idle _ hnew | cleanup _ hnew =>
    rw [hnew]
    rintro _ ⟨⟩
    exact ⟨nofun, nofun, nofun, List.forall_mem_singleton.2 trivial⟩
  | converge hstop hrunners hconverge => exact hconverge.evident (h _ hstop) hrunners

end Workload

/-! ### Whole runs -/

theorem evident_reachable {w : Workload} (h : workloadMachine.Reachable w) :
    ∀ stop ∈ w.stop, stop.Evident := by
  refine h.invariant (P := fun w => ∀ stop ∈ w.stop, stop.Evident) ?_ ?_
  · rintro w (⟨service, hadBinding, failures, failedUntil, rfl⟩ | ⟨service, kind, key, id, rfl⟩)
    · rintro _ ⟨⟩
    · rintro _ ⟨⟩
      exact ⟨fun _ => rfl, nofun, fun _ => Or.inl rfl, List.forall_mem_nil _⟩
  · rintro w ⟨env, a⟩ w' hreach hw hstep
    obtain ⟨⟨next, effects⟩, hnext, rfl⟩ := Option.map_eq_some_iff.1 hstep
    exact Workload.evident_step (coherent_reachable hreach) (accounted_reachable hreach) hw hnext

/-- **Stops end on evidence.**  In every interleaving of a workload's sections, a restored stop
included:

* `StopContainer` has been called, or is about to be, only for a stop whose record is durable;
* a stop that is there before a section and not after it was settled by its own goroutine, whose
  deletion of the record had succeeded, with a result that is not ambiguous, and with success if any
  attempt was ambiguous or the stop was restored from disk.  No observation, replacement, retirement
  or detachment takes a stop away. -/
theorem stop_evidence {w : Workload} (h : workloadMachine.Reachable w) {stop : Stop}
    (hstop : w.stop = some stop) :
    (stop.invoked = true ∨ .invoking ∈ stop.runners → stop.persisted = true) ∧
      ∀ env a w' effects, w.step env a = some (w', effects) →
        w'.stopIdentity ≠ some stop.identity →
        ∃ n result, a = .runner n .settle ∧ stop.runners = [.settling w.ownedID result true] ∧
          w'.stop = none ∧ stop.terminal = true ∧ result ≠ .ambiguous ∧
          (stop.doubted = true → result = .succeeded) := by
  have hevident := evident_reachable h stop hstop
  refine ⟨fun hcalled => ?_, fun env a w' effects hstep hgone => ?_⟩
  · rcases hcalled with hinvoked | hinvoking
    · exact hevident.persisted hinvoked
    · exact (hevident.runner _ hinvoking).1
  · have hidentity : w.stopIdentity = some stop.identity := by rw [Workload.stopIdentity, hstop]; rfl
    have hphase := (coherent_reachable h).stop_phase hstop
    cases Workload.stop_change (coherent_reachable h) (accounted_reachable h) hstep with
    | kept hkept => exact absurd (hkept.trans hidentity) hgone
    | idle hpending => rw [hpending] at hphase; cases hphase
    | cleanup hstarting => rw [hstarting] at hphase; cases hphase
    | @settled n settling result _ hsettling hrunner hnone =>
      obtain rfl := Option.some.inj (hstop.symm.trans hsettling)
      obtain ⟨hterminal, hresult⟩ : stop.terminal = true ∧ result = stop.result :=
        hevident.runner (.settling w.ownedID result true) (by simp [hrunner])
      obtain ⟨hambiguous, hrejected⟩ := hevident.terminal hterminal
      rw [← hresult] at hambiguous hrejected
      refine ⟨n, result, rfl, hrunner, hnone, hterminal, hambiguous, fun hdoubted => ?_⟩
      cases result with
      | succeeded => rfl
      | rejected => exact absurd (hdoubted.symm.trans (hrejected rfl)) (by simp)
      | ambiguous => exact absurd rfl hambiguous

/-- An idle stop whose first attempt is ambiguous and whose second one succeeds. -/
def doubtedRun : List (Env × Action) :=
  idleRun ++ (Action.performStop 1 1 :: ([.begin, .persist, .put true, .commit, .read, .invoke,
    .answer .ambiguous, .mark, .apply, .retry true, .begin, .persist, .read, .invoke,
    .answer .succeeded, .apply, .delete true].map (.runner 0))).map (Prod.mk running)

theorem stop_evidence_doubtedRun : ∃ w stop w' effects, workloadMachine.Reachable w ∧
    w.stop = some stop ∧ stop.persisted = true ∧ stop.doubted = true ∧
    w.step running (.runner 0 .settle) = some (w', effects) ∧ w'.stop = none ∧
    stop.runners = [.settling w.ownedID .succeeded true] := by
  have hstart : workloadMachine.Reachable (.registered (lit "web") false 0 0) :=
    .start (Or.inl ⟨_, _, _, _, rfl⟩)
  have hreach := hstart.run (show workloadMachine.run _ doubtedRun = some _ from rfl)
  obtain ⟨hpersisted, hgone⟩ := stop_evidence hreach rfl
  obtain ⟨n, result, -, hrunner, hnone, -, -, hresult⟩ :=
    hgone running (.runner 0 .settle) _ _ rfl (by rintro ⟨⟩)
  obtain rfl := hresult rfl
  exact ⟨_, _, _, _, hreach, rfl, hpersisted (Or.inl rfl), rfl, rfl, hnone, hrunner⟩

end Statute.Lifecycle
