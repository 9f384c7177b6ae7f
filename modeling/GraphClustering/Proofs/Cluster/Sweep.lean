import GraphClustering.Proofs.Cluster.Rules

/-!
# Sweeps and rounds

Sweeps, passes and rounds do one thing after another and report whether any of
them changed the tree.  `Tracks` says that such a report is right: the tree was
changed by rewrites, by at least one if a change is reported and by none
otherwise.  It composes (`Tracks.trans`), so that each loop takes one induction.
-/

namespace GraphClustering

open Forest Relation

namespace Postprocessing

variable {I : Forest → Prop} {E : Forest → Fault → Prop} {r c : ClusterId} {f g h : Forest}
variable {a b : Bool} {e : Fault} {n limit : Nat} {x : Forest × Except Fault Bool}
variable {rule : TreeRule} {step : Forest → Forest × Except Fault Bool}

/-! ## Reports -/

/-- A right report about the tree with root `r` that was `f`, where `a` tells
whether there were changes before; `E` are the faults that may stop it at a tree. -/
structure Tracks (E : Forest → Fault → Prop) (r : ClusterId) (f : Forest) (a : Bool)
    (x : Forest × Except Fault Bool) : Prop where
  rewrites : ReflTransGen (Rewrite r) f x.1
  report : ∀ b, x.2 = .ok b → b = a ∧ x.1 = f ∨ b = true ∧ TransGen (Rewrite r) f x.1
  failure : ∀ e, x.2 = .error e → E x.1 e

namespace Tracks

theorem nothing (f : Forest) (a : Bool) : Tracks E r f a (f, .ok a) where
  rewrites := .refl
  report b hb := .inl ⟨(Except.ok.inj hb).symm, rfl⟩
  failure e he := by cases he

theorem changed (h : TransGen (Rewrite r) f g) (a : Bool) : Tracks E r f a (g, .ok true) where
  rewrites := h.to_reflTransGen
  report b hb := .inr ⟨(Except.ok.inj hb).symm, h⟩
  failure e he := by cases he

theorem failed (h : ReflTransGen (Rewrite r) f g) (he : E g e) (a : Bool) :
    Tracks E r f a (g, .error e) where
  rewrites := h
  report b hb := by cases hb
  failure e' he' := by cases he'; exact he

/-- One report after another. -/
theorem trans (hfg : Tracks E r f a (g, .ok b)) (hx : Tracks E r g b x) : Tracks E r f a x where
  rewrites := hfg.rewrites.trans hx.rewrites
  report d hd := by
    rcases hfg.report b rfl with ⟨rfl, rfl⟩ | ⟨rfl, before⟩
    · exact hx.report d hd
    · rcases hx.report d hd with ⟨rfl, same⟩ | ⟨rfl, after⟩
      · exact .inr ⟨rfl, same ▸ before⟩
      · exact .inr ⟨rfl, before.trans after⟩
  failure := hx.failure

/-- A report may be added to an earlier one. -/
theorem or (h : Tracks E r f false (g, .ok b)) (a : Bool) : Tracks E r f a (g, .ok (a || b)) := by
  rcases h.report b rfl with ⟨rfl, same⟩ | ⟨rfl, after⟩
  · obtain rfl : g = f := same
    rw [Bool.or_false]
    exact .nothing g a
  · rw [Bool.or_true]
    exact .changed after a

theorem eq_of_unchanged (h : Tracks E r f false (g, .ok false)) : g = f := by
  rcases h.report false rfl with ⟨-, same⟩ | ⟨hb, -⟩
  · exact same
  · cases hb

end Tracks

/-! ## Loops -/

/-- A property of trees with root `r` that no rewrite destroys. -/
structure Invariant (r : ClusterId) (I : Forest → Prop) : Prop where
  rooted : ∀ {f}, I f → f.Rooted r
  rewrite : ∀ {f g}, I f → Rewrite r f g → I g

theorem Invariant.rewrites (hI : Invariant r I) (hf : I f) (h : ReflTransGen (Rewrite r) f g) :
    I g := by
  induction h with
  | refl => exact hf
  | tail _ step ih => exact hI.rewrite ih step

/-- A sound rule that fails on trees with the invariant only for certain faults. -/
structure Safe (I : Forest → Prop) (E : Forest → Fault → Prop) (r : ClusterId)
    (rule : TreeRule) : Prop extends rule.Sound r where
  failure : ∀ {f c e}, I f → f.root c = r → rule f c = .error e → E f e

theorem sweepOver_tracks (hI : Invariant r I) (hrule : Safe I E r rule) (hf : I f)
    (cs : List ClusterId) (a : Bool) : Tracks E r f a (sweepOver rule r cs f a) := by
  induction cs generalizing f a with
  | nil => exact .nothing f a
  | cons c cs ih =>
      rw [sweepOver]
      split
      · rename_i hc
        split
        · rename_i g b hg
          have first : Tracks E r f false (g, .ok b) := by
            cases b with
            | true => exact .changed (.single (hrule.changed (hI.rooted hf) hc hg)) false
            | false => rw [hrule.unchanged hg]; exact .nothing f false
          exact (first.or a).trans (ih (hI.rewrites hf first.rewrites) _)
        · rename_i e he
          exact .failed .refl (hrule.failure hf hc he) a
      · exact ih hf a

theorem sweep_tracks (hI : Invariant r I) (hrule : Safe I E r rule) (hf : I f) :
    Tracks E r f false (sweep rule r f) :=
  sweepOver_tracks hI hrule hf _ false

theorem untilSettled_tracks (hI : Invariant r I)
    (hstep : ∀ f, I f → Tracks E r f false (step f)) (n : Nat) (hf : I f) (a : Bool) :
    Tracks E r f a (untilSettled step n f a) := by
  induction n generalizing f a with
  | zero => exact .nothing f a
  | succ n ih =>
      have first := hstep f hf
      rw [untilSettled]
      split
      · rename_i g hg
        rw [hg] at first
        have all := (first.or a).trans (ih (hI.rewrites hf first.rewrites) _)
        rwa [Bool.or_true] at all
      · rename_i g hg
        rw [hg] at first
        rw [first.eq_of_unchanged]
        exact .nothing f a
      · rename_i g e hg
        rw [hg] at first
        exact .failed first.rewrites (first.failure e rfl) a

theorem applyPass_tracks (hI : Invariant r I) (hrule : Safe I E r rule) (hf : I f)
    (limit : Nat) : Tracks E r f false (applyPass limit r (.bottomUp rule) f) :=
  untilSettled_tracks hI (fun _ => sweep_tracks hI hrule) limit hf false

theorem round_tracks (hI : Invariant r I) {rules : List TreeRule}
    (hrules : ∀ rule ∈ rules, Safe I E r rule) (limit : Nat) (hf : I f) (a : Bool) :
    Tracks E r f a (round limit r (rules.map .bottomUp) f a) := by
  induction rules generalizing f a with
  | nil => exact .nothing f a
  | cons rule rules ih =>
      have first := applyPass_tracks hI (hrules rule List.mem_cons_self) hf limit
      rw [List.map_cons, round]
      split
      · rename_i g b hg
        rw [hg] at first
        exact (first.or a).trans
          (ih (fun q hq => hrules q (List.mem_cons_of_mem _ hq)) (hI.rewrites hf first.rewrites) _)
      · rename_i g e hg
        rw [hg] at first
        exact .failed first.rewrites (first.failure e rfl) a

/-! ## Settling -/

/-- Within `n` steps there is one that changes nothing, and it leaves the last forest. -/
inductive Settles (step : Forest → Forest × Except Fault Bool) : Nat → Forest → Forest → Prop where
  | stop {n : Nat} {f g : Forest} (h : step f = (g, .ok false)) : Settles step (n + 1) f g
  | more {n : Nat} {f g h : Forest} (change : step f = (g, .ok true)) (rest : Settles step n g h) :
      Settles step (n + 1) f h

/-- Where the steps settle, the loop ends. -/
theorem Settles.untilSettled_eq (h : Settles step n f g) (a : Bool) :
    ∃ b, untilSettled step n f a = (g, .ok b) := by
  induction h generalizing a with
  | stop h => exact ⟨a, by rw [untilSettled, h]⟩
  | more change rest ih =>
      obtain ⟨b, hb⟩ := ih true
      exact ⟨b, by rw [untilSettled, change]; exact hb⟩

theorem Settles.last (hI : Invariant r I) (hstep : ∀ f, I f → Tracks E r f false (step f))
    (h : Settles step n f g) (hf : I f) : I g ∧ step g = (g, .ok false) ∧ 0 < n := by
  induction h with
  | @stop n f g h =>
      have track := hstep _ hf
      rw [h] at track
      obtain rfl := track.eq_of_unchanged
      exact ⟨hf, h, Nat.succ_pos _⟩
  | @more n f g _ change rest ih =>
      have track := hstep _ hf
      rw [change] at track
      have last := ih (hI.rewrites hf track.rewrites)
      exact ⟨last.1, last.2.1, Nat.succ_pos _⟩

/-- The potential bounds the number of steps that change something. -/
theorem settles_or_fails (hI : Invariant r I) (hstep : ∀ f, I f → Tracks E r f false (step f))
    (hf : I f) (hn : f.potential r < n) (a : Bool) :
    (∃ g, Settles step n f g) ∨ ∃ g e, untilSettled step n f a = (g, .error e) ∧ E g e := by
  induction n generalizing f a with
  | zero => exact absurd hn (Nat.not_lt_zero _)
  | succ n ih =>
      have track := hstep _ hf
      rcases hx : step f with ⟨g, outcome⟩
      rw [hx] at track
      cases outcome with
      | error e => exact .inr ⟨g, e, by rw [untilSettled, hx], track.failure e rfl⟩
      | ok b =>
          cases b with
          | false => exact .inl ⟨g, .stop hx⟩
          | true =>
              rcases track.report true rfl with ⟨hb, -⟩ | ⟨-, changes⟩
              · cases hb
              · have lower := potential_lt_of_rewrites (hI.rooted hf) changes
                rcases ih (hI.rewrites hf track.rewrites) (by omega) true with
                  ⟨k, rest⟩ | ⟨k, e, he, hE⟩
                · exact .inl ⟨k, .more hx rest⟩
                · exact .inr ⟨k, e, by rw [untilSettled, hx]; exact he, hE⟩

/-! ## Nothing left to do -/

theorem report_of_changed (h : untilSettled step n f true = (g, .ok b)) : b = true := by
  induction n generalizing f with
  | zero => cases h; rfl
  | succ n ih =>
      rw [untilSettled] at h
      split at h
      · exact ih h
      · cases h; rfl
      · cases h

theorem step_of_unchanged (hn : 0 < n) (h : untilSettled step n f false = (g, .ok false)) :
    step f = (g, .ok false) := by
  obtain ⟨n, rfl⟩ := Nat.exists_eq_succ_of_ne_zero (Nat.ne_of_gt hn)
  rw [untilSettled] at h
  split at h
  · cases report_of_changed h
  · rename_i hx
    cases h
    exact hx
  · cases h

/-- A sweep that changes nothing has applied the rule to every cluster in vain. -/
theorem sweepOver_unchanged (hrule : rule.Sound r) {cs : List ClusterId}
    (h : sweepOver rule r cs f a = (g, .ok false)) :
    a = false ∧ g = f ∧ ∀ c ∈ cs, f.root c = r → rule f c = .ok (f, false) := by
  induction cs generalizing f a with
  | nil =>
      cases h
      exact ⟨rfl, rfl, nofun⟩
  | cons c cs ih =>
      rw [sweepOver] at h
      split at h
      · rename_i hc
        split at h
        · rename_i g' b hg
          obtain ⟨hab, rfl, rest⟩ := ih h
          obtain ⟨rfl, rfl⟩ := Bool.or_eq_false_iff.mp hab
          obtain rfl := hrule.unchanged hg
          refine ⟨rfl, rfl, ?_⟩
          intro d hd hdr
          rcases List.mem_cons.mp hd with rfl | hd
          · exact hg
          · exact rest d hd hdr
        · cases h
      · rename_i hc
        obtain ⟨ha, hg, rest⟩ := ih h
        refine ⟨ha, hg, ?_⟩
        intro d hd hdr
        rcases List.mem_cons.mp hd with rfl | hd
        · exact absurd hdr hc
        · exact rest d hd hdr

theorem applyPass_unchanged (hrule : rule.Sound r) (hn : 0 < n)
    (h : applyPass n r (.bottomUp rule) f = (g, .ok false)) :
    g = f ∧ ∀ c ∈ f.walk r, f.root c = r → rule f c = .ok (f, false) := by
  obtain ⟨-, hg, idle⟩ := sweepOver_unchanged hrule (step_of_unchanged hn h)
  exact ⟨hg, fun c hc => idle c (List.mem_mergeSort.mpr hc)⟩

/-- A round that changes nothing leaves no rule anything to do. -/
theorem round_unchanged {rules : List TreeRule} (hrules : ∀ rule ∈ rules, rule.Sound r)
    (hn : 0 < n) (h : round n r (rules.map .bottomUp) f a = (g, .ok false)) :
    a = false ∧ ∀ rule ∈ rules, ∀ c ∈ f.walk r, f.root c = r → rule f c = .ok (f, false) := by
  induction rules generalizing f a with
  | nil =>
      cases h
      exact ⟨rfl, nofun⟩
  | cons rule rules ih =>
      rw [List.map_cons, round] at h
      split at h
      · rename_i g' b hg
        obtain ⟨hab, rest⟩ := ih (fun q hq => hrules q (List.mem_cons_of_mem _ hq)) h
        obtain ⟨rfl, rfl⟩ := Bool.or_eq_false_iff.mp hab
        obtain ⟨rfl, first⟩ := applyPass_unchanged (hrules rule List.mem_cons_self) hn hg
        refine ⟨rfl, ?_⟩
        intro q hq
        rcases List.mem_cons.mp hq with rfl | hq
        · exact first
        · exact rest q hq
      · cases h

/-! ## Idle rules -/

/-- A rule that finds nothing to do at any cluster of a tree, unless it fails. -/
def Idle (E : Forest → Fault → Prop) (r : ClusterId) (f : Forest) (rule : TreeRule) : Prop :=
  ∀ c, f.root c = r → rule f c = .ok (f, false) ∨ ∃ e, rule f c = .error e ∧ E f e

/-- A report that nothing has changed since `a` was reported, or a failure. -/
def Still (E : Forest → Fault → Prop) (f : Forest) (a : Bool)
    (x : Forest × Except Fault Bool) : Prop :=
  x = (f, .ok a) ∨ ∃ e, x = (f, .error e) ∧ E f e

theorem Idle.sweepOver_still (idle : Idle E r f rule) (cs : List ClusterId) (a : Bool) :
    Still E f a (sweepOver rule r cs f a) := by
  induction cs with
  | nil => exact .inl rfl
  | cons c cs ih =>
      rw [sweepOver]
      split
      · rename_i hc
        rcases idle c hc with h | ⟨e, h, he⟩
        · rw [h]
          dsimp only
          rw [Bool.or_false]
          exact ih
        · rw [h]
          exact .inr ⟨e, rfl, he⟩
      · exact ih

theorem Still.untilSettled (h : Still E f false (step f)) (n : Nat) (a : Bool) :
    Still E f a (untilSettled step n f a) := by
  cases n with
  | zero => exact .inl rfl
  | succ n =>
      rw [Postprocessing.untilSettled]
      rcases h with h | ⟨e, h, he⟩
      · rw [h]
        exact .inl rfl
      · rw [h]
        exact .inr ⟨e, rfl, he⟩

/-- Rounds over idle rules change nothing. -/
theorem round_still {rules : List TreeRule} (idle : ∀ rule ∈ rules, Idle E r f rule)
    (limit : Nat) (a : Bool) : Still E f a (round limit r (rules.map .bottomUp) f a) := by
  induction rules with
  | nil => exact .inl rfl
  | cons rule rules ih =>
      have first : Still E f false (applyPass limit r (.bottomUp rule) f) :=
        Still.untilSettled ((idle rule List.mem_cons_self).sweepOver_still _ false) limit false
      rw [List.map_cons, round]
      rcases first with h | ⟨e, h, he⟩
      · rw [h]
        dsimp only
        rw [Bool.or_false]
        exact ih fun q hq => idle q (List.mem_cons_of_mem _ hq)
      · rw [h]
        exact .inr ⟨e, rfl, he⟩

/-! ## What a single step brings about -/

/-- What every step brings about holds after the loop. -/
theorem untilSettled_brings {J : Forest → Prop} (hI : Invariant r I)
    (hstep : ∀ f, I f → Tracks E r f false (step f))
    (brings : ∀ f g b, I f → step f = (g, .ok b) → J g) (hn : 0 < n) (hf : I f)
    (h : untilSettled step n f a = (g, .ok b)) : J g := by
  induction n generalizing f a with
  | zero => cases hn
  | succ n ih =>
      have track := hstep f hf
      rw [untilSettled] at h
      split at h
      · rename_i g' first
        rw [first] at track
        cases n with
        | zero =>
            cases h
            exact brings f g true hf first
        | succ n => exact ih (Nat.succ_pos n) (hI.rewrites hf track.rewrites) h
      · rename_i g' first
        cases h
        exact brings f g false hf first
      · cases h

/-- What one of the rules brings about in a sweep holds after the round, unless the
others destroy it. -/
theorem round_brings {J : Forest → Prop} {rules : List TreeRule} (hI : Invariant r I)
    (hJ : Invariant r J) (hrules : ∀ rule ∈ rules, Safe I E r rule) (hrule : rule ∈ rules)
    (brings : ∀ f g b, I f → sweep rule r f = (g, .ok b) → J g) (hn : 0 < n) (hf : I f)
    (h : round n r (rules.map .bottomUp) f a = (g, .ok b)) : J g := by
  induction rules generalizing f a with
  | nil => cases hrule
  | cons q rules ih =>
      have safe : ∀ rule ∈ rules, Safe I E r rule :=
        fun p hp => hrules p (List.mem_cons_of_mem _ hp)
      have sweeps := fun f (hf : I f) => sweep_tracks hI (hrules q List.mem_cons_self) hf
      rw [List.map_cons, round] at h
      split at h
      · rename_i g' b' hg
        have first := untilSettled_tracks hI sweeps n hf false
        rw [applyPass] at hg
        rw [hg] at first
        have hg' := hI.rewrites hf first.rewrites
        rcases List.mem_cons.mp hrule with rfl | hrule
        · have rest := round_tracks hI safe n hg' (a || b')
          rw [h] at rest
          exact hJ.rewrites (untilSettled_brings hI sweeps brings hn hf hg) rest.rewrites
        · exact ih safe hrule hg' h
      · cases h

end Postprocessing

end GraphClustering
