import LsmKv.Journal.Steps
import LsmKv.Store.Live

/-!
# Start-ups, flushes and crashes (`server-main.c`)

A process is started by `main`, which replays `tx_log` in recovery mode before `run_server_1`
loads the counter of c1; then it flushes, until it crashes.

* `Process.step`         one event of the life of a data directory;
* `NeverOverwritten`     no data file was opened with O_TRUNC under the number that the sstable
                         file named at that moment;
* `EventOk`              a replayed entry does not make c1 open that number;
* `never_overwritten_iff`   the published file is safe in a life exactly if every event is such.
-/

namespace LsmKv.Boot

open Crash Crash.Code

/-- where a process stands: `recovering` has these entries of the log left, `ready` is about to
call `run_server_1` -/
inductive Phase where
  | down
  | recovering (rest : List Transaction)
  | ready
  | up

structure Process where
  sys : Sys
  phase : Phase

/-- `os` is what the calls of the event come to -/
inductive Event where
  | main (recovery : Bool)
  | replay (os : List Outcome)
  | recovered
  | runServer1
  | logTransaction (txid : Int) (data : CStr)
  | c0Dump (T : C0Node) (os : List Outcome)
  | crash

namespace Process

def empty : Process := ⟨⟨LsmKv.crash Store.empty, []⟩, .down⟩

/-- the process ends: the files are left -/
def crashed (s : Sys) : Process := ⟨s.setStore (LsmKv.crash s.store), .down⟩

/-- a program of the process, which goes on in `phase` -/
def runs (s : Sys) (os : List Outcome) (p : Code Sys Unit) (phase : Phase) : Option Process :=
  match p s os with
  | .done _ s _ => some ⟨s, phase⟩
  | .died s => some (crashed s)
  | .undefined => none

def step (p : Process) (e : Event) : Option Process :=
  match e, p.phase with
  | .main recovery, .down =>
    match recovery, p.sys.store.txLog with
    | true, some entries => some { p with phase := .recovering entries }
    | _, _ => some { p with phase := .ready }
  | .replay os, .recovering (tx :: rest) => runs p.sys os (replayEntryIo tx) (.recovering rest)
  | .recovered, .recovering [] => some ⟨p.sys.setStore (flushLog p.sys.store), .ready⟩
  | .runServer1, .ready => some ⟨p.sys.setStore (LsmKv.runServer1 p.sys.store), .up⟩
  | .logTransaction txid data, .up =>
    some ⟨p.sys.setStore (LsmKv.logTransaction p.sys.store txid data), .up⟩
  | .c0Dump T os, .up => runs p.sys os (c0DumpIo T) .up
  | .crash, .recovering _ => some (crashed p.sys)
  | .crash, .ready => some (crashed p.sys)
  | .crash, .up => some (crashed p.sys)
  | _, _ => none

end Process

/-- no O_TRUNC of the data file that the sstable file named then -/
def NeverOverwritten (p : Process) : Prop :=
  ∀ n counter, .create n counter ∈ p.sys.log → counter ≠ some n

/-- the entry that `recover` replays next -/
def Phase.next : Phase → Option Transaction
  | .recovering (tx :: _) => some tx
  | _ => none

/-- a replayed entry that fills the table does not make c1 open the stored number -/
def EventOk (p : Process) : Event → Prop
  | .replay os => ∀ tx ∈ p.phase.next, ∀ nodes ∈ entryBatch p.sys.store tx,
      ∀ n ∈ p.sys.store.c1.stored, ¬ Creates p.sys.store.c1 nodes os n
  | _ => True

instance decEventOk (p : Process) : (e : Event) → Decidable (EventOk p e)
  | .replay os =>
    have (nodes : List Entry) (n : Int) : Decidable (Creates p.sys.store.c1 nodes os n) :=
      inferInstanceAs (Decidable (_ ∨ _))
    inferInstanceAs (Decidable (∀ tx ∈ p.phase.next, ∀ nodes ∈ entryBatch p.sys.store tx,
      ∀ n ∈ p.sys.store.c1.stored, ¬ Creates p.sys.store.c1 nodes os n))
  | .main _ => isTrue trivial
  | .recovered => isTrue trivial
  | .runServer1 => isTrue trivial
  | .logTransaction _ _ => isTrue trivial
  | .c0Dump _ _ => isTrue trivial
  | .crash => isTrue trivial

/-- before `c1_init` nothing is loaded; after it the counter is not behind the stored one -/
structure Inv (p : Process) : Prop where
  unloaded : p.phase ≠ .up → p.sys.store.c1.metadata = none
  loaded : p.phase = .up →
    ∀ n, p.sys.store.c1.stored = some n → n ≤ p.sys.store.c1.fileCounter

theorem inv_empty : Inv Process.empty := ⟨fun _ => rfl, fun h => by cases h⟩

theorem inv_crashed (s : Sys) : Inv (Process.crashed s) := ⟨fun _ => rfl, fun h => by cases h⟩

/-- a batch opens no number up to the counter -/
theorem creates_gt {c : C1} {nodes : List Entry} {os : List Outcome} {n : Int}
    (h : Creates c nodes os n) : c.fileCounter < n := by
  rcases h with ⟨rfl, -⟩ | ⟨rfl, -⟩ <;> omega

theorem runs_of_wp {s : Sys} {os : List Outcome} {prog : Code Sys Unit} {phase : Phase}
    {Q : Sys → Prop} {C : Sys → Prop} {p : Process} (h : wp prog (fun _ t _ => Q t) C s os)
    (hr : Process.runs s os prog phase = some p) :
    (∃ t, Q t ∧ p = ⟨t, phase⟩) ∨ ∃ t, C t ∧ p = Process.crashed t := by
  unfold Process.runs at hr
  unfold wp at h
  cases he : prog s os with
  | done _ t _ =>
    rw [he] at h hr
    exact Or.inl ⟨t, h, (Option.some.inj hr).symm⟩
  | died t =>
    rw [he] at h hr
    exact Or.inr ⟨t, h, (Option.some.inj hr).symm⟩
  | undefined =>
    rw [he] at hr
    cases hr

theorem never_of_log {p p' : Process} (h : p'.sys.log = p.sys.log) :
    NeverOverwritten p' ↔ NeverOverwritten p := by
  unfold NeverOverwritten
  rw [h]

theorem never_of_ended {p q : Process} {nodes : List Entry} {os : List Outcome}
    (h : Ended p.sys.dev nodes os q.sys.dev) : NeverOverwritten q ↔ NeverOverwritten p ∧
      ∀ n ∈ p.sys.store.c1.stored, ¬ Creates p.sys.store.c1 nodes os n := by
  unfold NeverOverwritten
  have hc : ∀ n counter, .create n counter ∈ q.sys.log ↔ .create n counter ∈ p.sys.log ∨
      Creates p.sys.store.c1 nodes os n ∧ counter = p.sys.store.c1.stored :=
    fun n counter => h.creates n counter
  constructor
  · intro hn
    refine ⟨fun n counter hm => hn n counter ((hc n counter).mpr (Or.inl hm)), fun n hs hcr => ?_⟩
    exact hn n _ ((hc n _).mpr (Or.inr ⟨hcr, rfl⟩)) hs
  · rintro ⟨hn, hs⟩ n counter hm
    rcases (hc n counter).mp hm with hm | ⟨hcr, rfl⟩
    · exact hn n counter hm
    · exact fun he => hs n he hcr

theorem dev_crashed (s : Sys) : (Process.crashed s).sys.log = s.log := rfl

/-- an entry of the log replayed -/
theorem replay_step {p p' : Process} {tx : Transaction} {rest : List Transaction}
    {os : List Outcome} (hi : Inv p) (hp : p.phase = .recovering (tx :: rest))
    (hr : Process.runs p.sys os (replayEntryIo tx) (.recovering rest) = some p') :
    Inv p' ∧ (NeverOverwritten p' ↔ NeverOverwritten p ∧
      ∀ nodes ∈ entryBatch p.sys.store tx, ∀ n ∈ p.sys.store.c1.stored,
        ¬ Creates p.sys.store.c1 nodes os n) := by
  have hmd : p.sys.store.c1.metadata = none := hi.unloaded (by rw [hp]; simp)
  have hone : ∀ {nodes : List Entry} {P : List Entry → Prop},
      entryBatch p.sys.store tx = some nodes →
      ((∀ nodes ∈ entryBatch p.sys.store tx, P nodes) ↔ P nodes) := by
    intro nodes P he
    rw [he]
    exact ⟨fun h => h nodes rfl, fun h n hn => Option.some.inj hn ▸ h⟩
  rcases runs_of_wp (wp_replayEntryIo p.sys tx os) hr with ⟨t, ⟨hnone, hsome⟩, rfl⟩ |
    ⟨t, ⟨nodes, he, hend⟩, rfl⟩
  · cases he : entryBatch p.sys.store tx with
    | none =>
      have hdev : t.dev = p.sys.dev := hnone he
      refine ⟨⟨fun _ => ?_, fun h => by cases h⟩, ?_⟩
      · show t.dev.c1.metadata = none
        rw [hdev]
        exact hmd
      · rw [never_of_log (p := p) (congrArg Dev.log hdev)]
        simp
    | some nodes =>
      obtain ⟨rc, hret⟩ := (hsome nodes he).returned
      refine ⟨⟨fun _ => hret.unloaded hmd, fun h => by cases h⟩, ?_⟩
      rw [← he, hone he]
      exact never_of_ended (Or.inr ⟨rc, hret⟩)
  · refine ⟨inv_crashed t, ?_⟩
    rw [hone he]
    exact (never_of_log (p := ⟨t, .down⟩) (dev_crashed t)).trans (never_of_ended hend)

/-- a flush of a process that has loaded its counter -/
theorem dump_step {p p' : Process} {T : C0Node} {os : List Outcome} (hi : Inv p)
    (hp : p.phase = .up) (hr : Process.runs p.sys os (c0DumpIo T) .up = some p') :
    Inv p' ∧ (NeverOverwritten p' ↔ NeverOverwritten p) := by
  have hd := hi.loaded hp
  have hsafe : ∀ nodes, ∀ n ∈ p.sys.store.c1.stored, ¬ Creates p.sys.store.c1 nodes os n := by
    intro nodes n hn hc
    have h1 := hd n hn
    have h2 := creates_gt hc
    omega
  by_cases hT : T = .null
  · subst hT
    cases hr
    exact ⟨⟨fun h => absurd rfl h, fun _ => hd⟩, Iff.rfl⟩
  · have hw := wp_mono (wp_c0DumpIo hT p.sys os) (fun _ t _ h => h.1) fun t h => h
    rcases runs_of_wp hw hr with ⟨t, hret, rfl⟩ | ⟨t, hend, rfl⟩
    · obtain ⟨rc, hret⟩ := hret.returned
      refine ⟨⟨fun h => absurd rfl h, fun _ => hret.counter hd⟩, ?_⟩
      rw [never_of_ended (q := ⟨t, .up⟩) (Or.inr ⟨rc, hret⟩), and_iff_left (hsafe _)]
    · refine ⟨inv_crashed t, ?_⟩
      rw [never_of_log (p := ⟨t, .down⟩) (dev_crashed t), never_of_ended hend,
        and_iff_left (hsafe _)]

theorem stored_c1Init (c : C1) : ∀ n, (c1Init c).stored = some n → n ≤ (c1Init c).fileCounter := by
  intro n hn
  unfold c1Init at hn ⊢
  cases hs : c.sstable with
  | none => simp [hs, C1.stored] at hn
  | some md =>
    simp only [hs, C1.stored, Option.map_some, Option.some.injEq] at hn ⊢
    exact hn.ge

/-- **One event**: it keeps the invariant, and the published file exactly under the guard. -/
theorem step_iff {p p' : Process} {e : Event} (hi : Inv p) (hs : p.step e = some p') :
    Inv p' ∧ (NeverOverwritten p' ↔ NeverOverwritten p ∧ EventOk p e) := by
  have quiet : ∀ {s : Sys} {phase : Phase}, s.log = p.sys.log →
      (NeverOverwritten ⟨s, phase⟩ ↔ NeverOverwritten p ∧ True) := fun h => by
    rw [and_true]
    exact never_of_log h
  have down : Inv (Process.crashed p.sys) ∧
      (NeverOverwritten (Process.crashed p.sys) ↔ NeverOverwritten p ∧ True) :=
    ⟨inv_crashed _, quiet rfl⟩
  unfold Process.step at hs
  split at hs
  · rename_i recovery _ hp
    have hmd := hi.unloaded (by rw [hp]; simp)
    split at hs <;> cases hs
    · exact ⟨⟨fun _ => hmd, fun h => by cases h⟩, quiet rfl⟩
    · exact ⟨⟨fun _ => hmd, fun h => by cases h⟩, quiet rfl⟩
  · rename_i os _ tx rest hp
    obtain ⟨h1, h2⟩ := replay_step hi hp hs
    refine ⟨h1, h2.trans (and_congr_right fun _ => ?_)⟩
    simp only [EventOk, hp, Phase.next, Option.mem_def, Option.some.injEq, forall_eq']
  · rename_i _ hp
    cases hs
    exact ⟨⟨fun _ => hi.unloaded (by rw [hp]; simp), fun h => by cases h⟩, quiet rfl⟩
  · cases hs
    exact ⟨⟨fun h => absurd rfl h, fun _ => stored_c1Init _⟩, quiet rfl⟩
  · rename_i txid data _ hp
    cases hs
    exact ⟨⟨fun h => absurd rfl h, fun _ => hi.loaded hp⟩, quiet rfl⟩
  · rename_i T os _ hp
    obtain ⟨h1, h2⟩ := dump_step hi hp hs
    exact ⟨h1, by simpa only [EventOk, and_true] using h2⟩
  · cases hs
    exact down
  · cases hs
    exact down
  · cases hs
    exact down
  · cases hs

/-- **The published data file is safe in a life exactly if no replayed entry makes c1 open its
number** before `c1_init` has loaded the counter. -/
theorem never_overwritten_iff (es : List Event) (p : Process)
    (hr : Run.run Process.step Process.empty es = some p) :
    NeverOverwritten p ↔ Run.Guarded Process.step EventOk Process.empty es := by
  rw [Run.guarded_iff_of_step (P := NeverOverwritten) (fun _ _ _ hi hs => (step_iff hi hs).1)
    (fun _ _ _ hi hs => (step_iff hi hs).2) inv_empty hr]
  exact and_iff_right fun n counter h => by simp [Process.empty] at h

/-! ## two lives -/

/-- a first flush -/
def firstFlush : List Event :=
  [.main false, .runServer1, .c0Dump (C0Node.null.insert ['b'] ['1'] 0) []]

/-- a recovery that replays one write, and a flush after it -/
def quietLife : List Event := firstFlush ++
  [.logTransaction 7 "PUT a 2".toList, .crash, .main true, .replay [], .recovered, .runServer1,
    .c0Dump (C0Node.null.insert ['a'] ['2'] 0) []]

theorem never_overwritten_quietLife :
    ∃ p, Run.run Process.step Process.empty quietLife = some p ∧ NeverOverwritten p := by
  obtain ⟨p, hp⟩ := Option.isSome_iff_exists.mp
    (by decide +kernel : (Run.run Process.step Process.empty quietLife).isSome)
  exact ⟨p, hp, (never_overwritten_iff quietLife p hp).mpr (by decide +kernel)⟩

/-- `maxC0Size` keys -/
def fullKeys : List CStr := crowd.take maxC0Size

/-- A flush that fails leaves its writes in the log; the recovery replays them until the table is
full again. -/
def replayedLife : List Event := firstFlush ++
  fullKeys.map (fun k => .logTransaction 7 ("PUT ".toList ++ k ++ " v".toList)) ++
  [.c0Dump (fullKeys.foldl (fun T k => T.insert k ['v'] 0) .null) [.fails], .crash, .main true] ++
  List.replicate maxC0Size (.replay [])

theorem replayedLife_log : (Run.run Process.step Process.empty replayedLife).map
    (fun p => decide (.create 0 (some 0) ∈ p.sys.log)) = some true := by
  decide +kernel

/-- **The replay opens data file 0 while the sstable file names it.** -/
theorem replay_overwrites : ∃ p, Run.run Process.step Process.empty replayedLife = some p ∧
    ¬ NeverOverwritten p := by
  obtain ⟨p, hp, h⟩ := Option.map_eq_some_iff.mp replayedLife_log
  exact ⟨p, hp, fun hn => hn 0 (some 0) (of_decide_eq_true h) rfl⟩

end LsmKv.Boot
