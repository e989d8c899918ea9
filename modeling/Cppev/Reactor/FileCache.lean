import Cppev.Lock.Sections
import Cppev.Nio.ReadAll
import Cppev.Reactor.FileServer

/-!
# The file cache

`class filecache` of `examples/file_transfer`, which the loops of the server share: `lazyload` reads
a file on the first call for its name and keeps it, under a mutex.

A reading may throw, and then the next call for the file reads it again. One that returns is the
last.

* `lazyload_once`: in every interleaving of the calls, a file is not read any more once it has been
  read without a throw, and every call for its name returns the bytes of that reading.
* `file_servers_agree`: two connections, of whatever loops, that asked for the same file and were
  closed by the server have been sent the same bytes.
-/

namespace Cppev

/-! ## The cache and its callers -/

/-- `CHUNK_SIZE`. -/
def chunkSize : Int := 10 * 1024 * 1024

/-- A call of `read_all` in `lazyload`: the file, what the kernel answered, and whether it has
returned. -/
structure Reading where
  filename : List Byte
  reads : List ReadResult
  returned : Bool
  deriving DecidableEq, Repr

/-- `class filecache`. -/
structure Filecache where
  /-- `hash_`. -/
  hash : List Byte → Option Nstream
  /-- History: the files that have been stored, with what the kernel answered. -/
  loads : List (List Byte × List ReadResult)
  /-- History: every reading of a file, also those that threw. -/
  readings : List Reading

/-- What the kernel answers to `open`, to the `fcntl` of `set_io_nonblock` and to each `read`. -/
structure FileAnswers where
  fd : Int
  nonblock : Bool
  reads : List ReadResult

/-- Where a call of `lazyload` is. -/
inductive LazyloadPc where
  | outside
  | found
  | missed
  | opened (iops : Nstream)
  | filled (iops : Nstream)
  | threw

/-- A thread that calls `lazyload`. -/
structure CacheUser where
  pc : LazyloadPc
  /-- History: the calls that have returned, with what their pointer points at. -/
  returned : List (List Byte × List Byte)

namespace Filecache

variable (filename : List Byte) (answers : FileAnswers)

/-! ### The parts of a call

`lazyload` is its statements in order; each is a change of the cache and of the calling thread, so
that the mutex can be put around all of them. -/

/-- `hash_.count(filename) != 0`. -/
def count (d : Filecache × CacheUser) : Filecache × CacheUser :=
  (d.1, { d.2 with pc := if (d.1.hash filename).isSome then .found else .missed })

/-- `open` and `make_shared<nstream>(fd)`. That `open` fails is not asked for, but `set_io_nonblock`
throws then. -/
def openFile (d : Filecache × CacheUser) : Filecache × CacheUser :=
  match d.2.pc with
  | .missed =>
    (d.1, { d.2 with
      pc := if answers.fd < 0 ∨ answers.nonblock = false then .threw
        else .opened (Nstream.new answers.fd) })
  | _ => d

/-- `iops->read_all(CHUNK_SIZE)` and `close(fd)`. -/
def readFile (d : Filecache × CacheUser) : Filecache × CacheUser :=
  match d.2.pc with
  | .opened iops =>
    match (Nstream.readAll chunkSize).exec ⟨iops, answers.reads, [], []⟩ with
    | (.ok _, io) =>
      ({ d.1 with readings := d.1.readings ++ [⟨filename, answers.reads, true⟩] },
        { d.2 with pc := .filled io.str })
    | (.error _, _) =>
      ({ d.1 with readings := d.1.readings ++ [⟨filename, answers.reads, false⟩] },
        { d.2 with pc := .threw })
  | _ => d

/-- `hash_[filename] = iops`. -/
def store (d : Filecache × CacheUser) : Filecache × CacheUser :=
  match d.2.pc with
  | .filled iops =>
    ({ d.1 with
        hash := Function.update d.1.hash filename (some iops)
        loads := d.1.loads ++ [(filename, answers.reads)] }, { d.2 with pc := .found })
  | _ => d

/-- `return &(hash_[filename]->rbuffer())`. -/
def giveBack (d : Filecache × CacheUser) : Filecache × CacheUser :=
  match d.2.pc, d.1.hash filename with
  | .found, some iops =>
    (d.1, ⟨.outside, d.2.returned ++ [(filename, iops.rbuffer.unread)]⟩)
  | _, _ => d

def lazyload : CriticalSection Filecache CacheUser where
  writes := true
  actions := [count filename, openFile answers, readFile filename answers, store filename answers,
    giveBack filename]
  reads h := by cases h

def empty : Filecache := ⟨fun _ => none, [], []⟩

end Filecache

/-! ## The calls under the mutex -/

/-- What the threads that share a cache do. -/
inductive CacheLabel (ι : Type) where
  | lazyload (i : ι) (filename : List Byte) (answers : FileAnswers)
  | lock (i : ι)
  | goOn (i : ι)
  | unlock (i : ι)

def CacheLabel.toLocked {ι : Type} : CacheLabel ι → LockedLabel ι Filecache CacheUser
  | .lazyload i filename answers => .call i true (Filecache.lazyload filename answers)
  | .lock i => .attempt i
  | .goOn i => .act i
  | .unlock i => .unlock i

abbrev SharedCache (ι : Type) := Locked ι (Option ι) Filecache CacheUser

namespace SharedCache

variable {ι : Type} [DecidableEq ι]

/-- An empty cache, and nobody in a call. -/
def init : SharedCache ι := Locked.init mutexClass (Filecache.empty, fun _ => ⟨.outside, []⟩)

def step (s : SharedCache ι) (l : CacheLabel ι) : Option (SharedCache ι) :=
  Locked.step mutexClass s l.toLocked

/-- A call for `filename` has returned a buffer that holds `bytes`. -/
def Returned (s : SharedCache ι) (filename bytes : List Byte) : Prop :=
  ∃ i, (filename, bytes) ∈ (s.sections.locals i).returned

/-- The files that have been stored. -/
def loads (s : SharedCache ι) : List (List Byte × List ReadResult) := s.sections.shared.loads

/-- The readings, in their order. -/
def readings (s : SharedCache ι) : List Reading := s.sections.shared.readings

/-! ## What a call does

`Consistent` holds at every point of a call. Between a reading and the storing of what it gave, a
file has been read that the cache does not have; between two calls there is none (`Settled`). -/

/-- The cache against its history, and what has been returned against the cache. -/
structure Consistent (cache : Filecache) (users : ι → CacheUser) : Prop where
  last : cache.readings.Pairwise fun r r' => r.returned = true → r'.filename ≠ r.filename
  cached : ∀ filename, (cache.hash filename).isSome = true → filename ∈ cache.loads.map Prod.fst
  held : ∀ filename reads, (filename, reads) ∈ cache.loads →
    ∃ iops, cache.hash filename = some iops ∧ iops.rbuffer.unread = (deliver reads).bytes
  read : ∀ filename reads, (filename, reads) ∈ cache.loads →
    ⟨filename, reads, true⟩ ∈ cache.readings
  returned : ∀ i filename bytes, (filename, bytes) ∈ (users i).returned →
    ∃ iops, cache.hash filename = some iops ∧ iops.rbuffer.unread = bytes

/-- The cache has what has been read, but for the file `except`. -/
def SettledBut (except : Option (List Byte)) (cache : Filecache) : Prop :=
  ∀ r ∈ cache.readings, r.returned = true →
    (cache.hash r.filename).isSome = true ∨ except = some r.filename

/-- What there is between two calls. -/
structure Settled (cache : Filecache) (users : ι → CacheUser) : Prop
    extends Consistent cache users where
  settled : SettledBut none cache

/-- What the call of one thread knows. -/
def Knows (filename : List Byte) (answers : FileAnswers) (cache : Filecache) : LazyloadPc → Prop
  | .missed => cache.hash filename = none ∧ SettledBut none cache
  | .opened iops =>
    (cache.hash filename = none ∧ SettledBut none cache) ∧ iops.rbuffer = Buffer.empty
  | .filled iops =>
    (cache.hash filename = none ∧ SettledBut (some filename) cache) ∧
      ⟨filename, answers.reads, true⟩ ∈ cache.readings ∧
        iops.rbuffer.unread = (deliver answers.reads).bytes
  | .outside | .found | .threw => SettledBut none cache

/-- A call of the thread `i` that has got beyond `count`. -/
structure Going (filename : List Byte) (answers : FileAnswers) (users : ι → CacheUser) (i : ι)
    (d : Filecache × CacheUser) : Prop where
  consistent : Consistent d.1 (Function.update users i d.2)
  knows : Knows filename answers d.1 d.2.pc

variable {cache : Filecache} {users : ι → CacheUser} {filename : List Byte} {answers : FileAnswers}
  {i : ι} {d : Filecache × CacheUser}

/-! ### The statements keep it -/

omit [DecidableEq ι] in
/-- It speaks of what the threads have got, not of where they are. -/
theorem Consistent.congr (h : Consistent cache users) {users' : ι → CacheUser}
    (hreturned : ∀ i, (users' i).returned = (users i).returned) : Consistent cache users' := by
  refine ⟨h.last, h.cached, h.held, h.read, ?_⟩
  intro i filename bytes hmem
  rw [hreturned i] at hmem
  exact h.returned i filename bytes hmem

/-- A thread that goes on has got what it had got. -/
theorem update_update_returned (users : ι → CacheUser) (i : ι) {u u' : CacheUser}
    (h : u'.returned = u.returned) (j : ι) :
    (Function.update users i u' j).returned = (Function.update users i u j).returned := by
  rcases eq_or_ne j i with rfl | hji
  · simp [h]
  · simp [hji]

/-- A step that changes nothing but where the thread is. -/
theorem Going.at (h : Going filename answers users i d) {pc : LazyloadPc}
    (hknows : Knows filename answers d.1 pc) :
    Going filename answers users i (d.1, { d.2 with pc }) :=
  ⟨h.consistent.congr (update_update_returned users i rfl), hknows⟩

/-- The first statement: the cache has the file, or it does not. -/
theorem Going.count (h : Settled cache users) (filename : List Byte) (answers : FileAnswers)
    (i : ι) : Going filename answers users i (Filecache.count filename (cache, users i)) := by
  refine ⟨h.toConsistent.congr ?_, ?_⟩
  · intro j
    rcases eq_or_ne j i with rfl | hji
    · simp [Filecache.count]
    · simp [hji]
  · cases hfile : cache.hash filename with
    | none => simpa [Filecache.count, hfile, Knows] using h.settled
    | some iops => simpa [Filecache.count, hfile, Knows] using h.settled

/-- `open` fails, and the call is over, or the file is to be read. -/
theorem Going.openFile (h : Going filename answers users i d) :
    Going filename answers users i (Filecache.openFile answers d) := by
  unfold Filecache.openFile
  split
  case h_2 => exact h
  case h_1 hpc =>
    have hmissed : d.1.hash filename = none ∧ SettledBut none d.1 := by
      simpa [hpc, Knows] using h.knows
    apply h.at
    split
    case isTrue => exact hmissed.2
    case isFalse => exact ⟨hmissed, rfl⟩

/-- `read_all` gives what the kernel delivers, and starts with an empty buffer. -/
theorem unread_readAll {iops : Nstream} (hnew : iops.rbuffer = Buffer.empty)
    (reads : List ReadResult) :
    ((Nstream.readAll chunkSize).exec ⟨iops, reads, [], []⟩).2.str.rbuffer.unread =
      (deliver reads).bytes := by
  have hwf : iops.rbuffer.Wf := hnew ▸ Buffer.wf_empty
  have hall := Nstream.readsAll_exec (by decide : 1 ≤ chunkSize)
    (show (⟨iops, reads, [], []⟩ : StreamIO).str.rbuffer.Wf from hwf)
  rw [hall.unread]
  show iops.rbuffer.unread ++ _ = _
  rw [hnew]
  rfl

omit [DecidableEq ι] in
/-- A reading of a file that the cache does not have. The cache has those that have been read before,
so this one has not. -/
theorem Consistent.reading (h : Consistent cache users) (hnone : cache.hash filename = none)
    (hsettled : SettledBut none cache) (reads : List ReadResult) (returned : Bool) :
    Consistent { cache with readings := cache.readings ++ [⟨filename, reads, returned⟩] } users := by
  refine ⟨List.pairwise_append.mpr ⟨h.last, List.pairwise_singleton .., ?_⟩, h.cached, h.held, ?_,
    h.returned⟩
  · intro r hr r' hr' hreturned
    obtain rfl := List.mem_singleton.mp hr'
    rintro rfl
    rcases hsettled r hr hreturned with hsome | hnot
    · rw [hnone] at hsome
      cases hsome
    · cases hnot
  · intro name reads' hload
    exact List.mem_append_left _ (h.read name reads' hload)

/-- A reading that has thrown leaves nothing to be stored. -/
theorem SettledBut.threw (h : SettledBut none cache) (reads : List ReadResult) :
    SettledBut none { cache with readings := cache.readings ++ [⟨filename, reads, false⟩] } := by
  intro r hr hreturned
  rcases List.mem_append.mp hr with hr | hr
  · exact h r hr hreturned
  · rw [List.mem_singleton.mp hr] at hreturned
    cases hreturned

/-- A reading that has returned is to be stored, and it is the only one. -/
theorem SettledBut.filled (h : SettledBut none cache) (reads : List ReadResult) :
    SettledBut (some filename)
      { cache with readings := cache.readings ++ [⟨filename, reads, true⟩] } := by
  intro r hr hreturned
  rcases List.mem_append.mp hr with hr | hr
  · exact .inl ((h r hr hreturned).resolve_right (by simp))
  · exact .inr (by rw [List.mem_singleton.mp hr])

/-- The reading is recorded, whether it returns or throws. -/
theorem Going.readFile (h : Going filename answers users i d) :
    Going filename answers users i (Filecache.readFile filename answers d) := by
  unfold Filecache.readFile
  split
  case h_2 => exact h
  case h_1 iops hpc =>
    obtain ⟨⟨hnone, hsettled⟩, hnew⟩ :
        (d.1.hash filename = none ∧ SettledBut none d.1) ∧ iops.rbuffer = Buffer.empty := by
      simpa [hpc, Knows] using h.knows
    have hread := unread_readAll hnew answers.reads
    split
    case h_1 v io heq =>
      rw [heq] at hread
      refine ⟨(h.consistent.reading hnone hsettled answers.reads true).congr
        (update_update_returned users i rfl), ⟨hnone, hsettled.filled answers.reads⟩, ?_, hread⟩
      exact List.mem_append_right _ (.head _)
    case h_2 =>
      exact ⟨(h.consistent.reading hnone hsettled answers.reads false).congr
        (update_update_returned users i rfl), hsettled.threw answers.reads⟩

omit [DecidableEq ι] in
/-- A file that the cache does not have goes into it; the others stay. -/
theorem Consistent.store (h : Consistent cache users) {iops : Nstream}
    (hnone : cache.hash filename = none) (hmem : ⟨filename, answers.reads, true⟩ ∈ cache.readings)
    (hread : iops.rbuffer.unread = (deliver answers.reads).bytes) :
    Consistent { cache with
      hash := Function.update cache.hash filename (some iops)
      loads := cache.loads ++ [(filename, answers.reads)] } users := by
  -- the entries of other names stay
  have hother : ∀ name iops', cache.hash name = some iops' →
      Function.update cache.hash filename (some iops) name = some iops' := by
    intro name iops' hname
    rw [Function.update_of_ne ?_, hname]
    rintro rfl
    rw [hnone] at hname
    cases hname
  constructor
  case last => exact h.last
  case cached =>
    intro name hname
    rw [List.map_append]
    rcases eq_or_ne name filename with rfl | hne
    · -- the name that is stored now
      exact List.mem_append_right _ (.head _)
    · apply List.mem_append_left
      exact h.cached name (by simpa [hne] using hname)
  case held =>
    intro name reads hload
    rcases List.mem_append.mp hload with hload | hload
    · obtain ⟨iops', hname, hbytes⟩ := h.held name reads hload
      exact ⟨iops', hother name iops' hname, hbytes⟩
    · obtain ⟨rfl, rfl⟩ := Prod.mk.inj (List.mem_singleton.mp hload)
      exact ⟨iops, Function.update_self .., hread⟩
  case read =>
    intro name reads hload
    rcases List.mem_append.mp hload with hload | hload
    · exact h.read name reads hload
    · obtain ⟨rfl, rfl⟩ := Prod.mk.inj (List.mem_singleton.mp hload)
      exact hmem
  case returned =>
    intro i name bytes hmem
    obtain ⟨iops', hname, hbytes⟩ := h.returned i name bytes hmem
    exact ⟨iops', hother name iops' hname, hbytes⟩

/-- Nothing is left to be stored then. -/
theorem SettledBut.store (h : SettledBut (some filename) cache) (iops : Nstream)
    (reads : List ReadResult) :
    SettledBut none { cache with
      hash := Function.update cache.hash filename (some iops)
      loads := cache.loads ++ [(filename, reads)] } := by
  intro r hr hreturned
  rcases eq_or_ne r.filename filename with heq | hne
  · exact .inl (by simp [heq])
  · have hsome := (h r hr hreturned).resolve_right fun heq => hne (Option.some.inj heq).symm
    exact .inl (by simpa [hne] using hsome)

/-- Whatever a call has found, it is not between a reading and its storing after `store`. -/
theorem Going.store (h : Going filename answers users i d) :
    Going filename answers users i (Filecache.store filename answers d) ∧
      SettledBut none (Filecache.store filename answers d).1 := by
  have hknows := h.knows
  unfold Filecache.store
  split
  case h_2 hpc =>
    refine ⟨h, ?_⟩
    cases hat : d.2.pc with
    | filled iops => exact absurd hat (hpc iops)
    | missed => rw [hat] at hknows; exact hknows.2
    | opened iops => rw [hat] at hknows; exact hknows.1.2
    | outside => rw [hat] at hknows; exact hknows
    | found => rw [hat] at hknows; exact hknows
    | threw => rw [hat] at hknows; exact hknows
  case h_1 iops hpc =>
    rw [hpc] at hknows
    obtain ⟨⟨hnone, hsettled⟩, hmem, hread⟩ := hknows
    have hstored := h.consistent.store hnone hmem hread
    have hnothing := hsettled.store iops answers.reads
    exact ⟨⟨hstored.congr (update_update_returned users i rfl), hnothing⟩, hnothing⟩

/-- The bytes that a call returns are those that the cache has. -/
theorem Going.giveBack (h : Going filename answers users i d) :
    Going filename answers users i (Filecache.giveBack filename d) := by
  have hknows := h.knows
  unfold Filecache.giveBack
  split
  case h_2 => exact h
  case h_1 iops hpc hname =>
    rw [hpc] at hknows
    refine ⟨⟨h.consistent.last, h.consistent.cached, h.consistent.held, h.consistent.read, ?_⟩,
      hknows⟩
    intro j name bytes hmem
    rcases eq_or_ne j i with rfl | hji
    · rw [Function.update_self] at hmem
      rcases List.mem_append.mp hmem with hmem | hmem
      · exact h.consistent.returned j name bytes (by rwa [Function.update_self])
      · obtain ⟨rfl, rfl⟩ := Prod.mk.inj (List.mem_singleton.mp hmem)
        exact ⟨iops, hname, rfl⟩
    · rw [Function.update_of_ne hji] at hmem
      exact h.consistent.returned j name bytes (by rwa [Function.update_of_ne hji])

/-- `giveBack` does not touch the cache. -/
theorem fst_giveBack (filename : List Byte) (d : Filecache × CacheUser) :
    (Filecache.giveBack filename d).1 = d.1 := by
  unfold Filecache.giveBack
  split <;> rfl

/-- However far a call has come, the cache is consistent, and it is settled again at its end. -/
theorem keeps_lazyload (filename : List Byte) (answers : FileAnswers) :
    (Filecache.lazyload filename answers).Keeps (Settled (ι := ι)) Consistent := by
  constructor
  case within =>
    intro i cache users before hbefore h
    cases before with
    | nil =>
        rw [show (perform [] (cache, users i)).2 = users i from rfl, Function.update_eq_self]
        exact h.toConsistent
    | cons f more =>
        obtain ⟨rfl, hmore⟩ := List.cons_prefix_cons.mp hbefore
        have hcount := Going.count h filename answers i
        refine (perform_inv (P := Going filename answers users i) ?_ hcount).consistent
        intro f hf d hd
        have hf := hmore.subset hf
        simp only [List.mem_cons, List.not_mem_nil, or_false] at hf
        rcases hf with rfl | rfl | rfl | rfl
        · exact hd.openFile
        · exact hd.readFile
        · exact hd.store.1
        · exact hd.giveBack
  case whole =>
    intro i cache users h
    obtain ⟨hstored, hsettled⟩ := (Going.count h filename answers i).openFile.readFile.store
    refine ⟨hstored.giveBack.consistent, ?_⟩
    rw [← fst_giveBack filename] at hsettled
    exact hsettled

/-- By the library's rule for invariants of the data: a call that runs alone keeps it, by
`keeps_lazyload`, so every run does. -/
theorem consistent_of_run {ls : List (CacheLabel ι)} {s : SharedCache ι}
    (hrun : run step init ls = some s) :
    Consistent s.sections.shared s.sections.locals := by
  have hrun : run (Locked.step mutexClass) init (ls.map CacheLabel.toLocked) = some s :=
    (run_map ..).symm.trans hrun
  refine Locked.invariant_of_run (Q := Settled) mutexClass_lawful
    (C := fun c => ∃ filename answers, c = Filecache.lazyload filename answers) ?_
    (fun _ _ h => h.toConsistent) ?_ ?_ hrun
  · rintro c ⟨filename, answers, rfl⟩
    exact ⟨rfl, keeps_lazyload filename answers⟩
  · refine ⟨⟨List.Pairwise.nil, ?_, ?_, ?_, ?_⟩, ?_⟩
    case refine_1 =>
      intro filename h
      simp [Filecache.empty] at h
    case refine_2 =>
      intro filename reads h
      simp [Filecache.empty] at h
    case refine_3 =>
      intro filename reads h
      simp [Filecache.empty] at h
    case refine_4 =>
      intro i filename bytes h
      simp at h
    case refine_5 =>
      intro r h
      simp [Filecache.empty] at h
  · intro i w c hc
    obtain ⟨l, -, hl⟩ := List.mem_map.mp hc
    cases l with
    | lazyload j filename answers =>
        obtain ⟨-, -, rfl⟩ := LockedLabel.call.inj hl
        exact ⟨filename, answers, rfl⟩
    | lock j => cases hl
    | goOn j => cases hl
    | unlock j => cases hl

omit [DecidableEq ι] in
/-- What has been returned to anybody was stored, and comes from a reading that returned. -/
theorem Consistent.loaded (h : Consistent cache users) {bytes : List Byte}
    (hmem : (filename, bytes) ∈ (users i).returned) :
    ∃ reads iops, (filename, reads) ∈ cache.loads ∧ bytes = (deliver reads).bytes ∧
      cache.hash filename = some iops ∧ iops.rbuffer.unread = bytes := by
  obtain ⟨iops, hfile, hbytes⟩ := h.returned i filename bytes hmem
  have hloaded := h.cached filename (by rw [hfile]; rfl)
  obtain ⟨⟨name, reads⟩, hload, rfl⟩ := List.mem_map.mp hloaded
  obtain ⟨iops', hfile', hread⟩ := h.held name reads hload
  obtain rfl : iops = iops' := Option.some.inj (hfile.symm.trans hfile')
  exact ⟨reads, iops, hload, hbytes.symm.trans hread, hfile, hbytes⟩

/-! ### The results -/

/-- **No file is read again.** In every interleaving of the calls of `lazyload`, a reading that has
returned is the last one of its file; and what a call has returned holds the bytes of that reading,
from then on. -/
theorem lazyload_once {ls : List (CacheLabel ι)} {s : SharedCache ι}
    (hrun : run step init ls = some s) :
    (s.readings.Pairwise fun r r' => r.returned = true → r'.filename ≠ r.filename) ∧
      ∀ filename bytes, s.Returned filename bytes →
        ∃ r ∈ s.readings, ∃ iops, (r.filename = filename ∧ r.returned = true) ∧
          bytes = (deliver r.reads).bytes ∧
            s.sections.shared.hash filename = some iops ∧ iops.rbuffer.unread = bytes := by
  have h := consistent_of_run hrun
  refine ⟨h.last, ?_⟩
  rintro filename bytes ⟨i, hmem⟩
  obtain ⟨reads, iops, hload, hbytes, hcache⟩ := h.loaded hmem
  exact ⟨⟨filename, reads, true⟩, h.read filename reads hload, iops, ⟨rfl, rfl⟩, hbytes, hcache⟩

/-- Two threads ask for the file `A`, which changes after the first has read it. -/
def askTwice : List (CacheLabel Bool) :=
  [.lazyload false [65] ⟨7, true, [.bytes [1, 2, 65], .bytes []]⟩,
    .lazyload true [65] ⟨8, true, [.bytes [3], .bytes []]⟩,
    .lock false, .lock true, .goOn false, .goOn false, .goOn false, .goOn false, .goOn false,
    .unlock false, .lock true, .goOn true, .goOn true, .goOn true, .goOn true, .goOn true,
    .unlock true]

/-- Two threads ask for one file, and the second waits for the first. -/
theorem exists_askTwice : ∃ s, run step init askTwice = some s ∧ s.Returned [65] [1, 2, 65] := by
  have hend : ((run step init askTwice).any fun s =>
      decide (s.loads = [([65], [.bytes [1, 2, 65], .bytes []])]) &&
        decide ((s.sections.locals true).returned.map Prod.fst = [[65]])) = true := by
    decide +kernel
  obtain ⟨s, hs, heq⟩ := (Option.any_eq_true ..).mp hend
  simp only [Bool.and_eq_true, decide_eq_true_eq] at heq
  obtain ⟨hloads, hreturned⟩ := heq
  have hmem : [65] ∈ (s.sections.locals true).returned.map Prod.fst := by
    rw [hreturned]
    exact .head _
  obtain ⟨⟨name, bytes⟩, hpair, rfl⟩ := List.mem_map.mp hmem
  obtain ⟨reads, -, hload, rfl, -⟩ := (consistent_of_run hs).loaded hpair
  have hload : ([65], reads) ∈ s.loads := hload
  rw [hloads] at hload
  obtain ⟨-, rfl⟩ := Prod.mk.inj (List.mem_singleton.mp hload)
  exact ⟨s, hs, true, hpair⟩

/-- The first reading throws, and the file is read again. -/
def askAgain : List (CacheLabel Bool) :=
  [.lazyload false [65] ⟨6, true, [.bytes [1], .err (.other 5)]⟩,
    .lock false, .goOn false, .goOn false, .goOn false, .goOn false, .goOn false, .unlock false] ++
    askTwice

/-- The first reading ends with an error, so the second call reads again. -/
theorem lazyload_once_askAgain :
    ∃ s, run step init askAgain = some s ∧
      s.readings = [⟨[65], [.bytes [1], .err (.other 5)], false⟩,
        ⟨[65], [.bytes [1, 2, 65], .bytes []], true⟩] ∧
      (s.readings.Pairwise fun r r' => r.returned = true → r'.filename ≠ r.filename) ∧
        ∀ bytes, s.Returned [65] bytes → bytes = [1, 2, 65] := by
  have hend : ((run step init askAgain).any fun s =>
      decide (s.readings = [⟨[65], [.bytes [1], .err (.other 5)], false⟩,
        ⟨[65], [.bytes [1, 2, 65], .bytes []], true⟩])) = true := by
    decide +kernel
  obtain ⟨s, hs, heq⟩ := (Option.any_eq_true ..).mp hend
  have heq := of_decide_eq_true heq
  obtain ⟨hlast, hread⟩ := lazyload_once hs
  refine ⟨s, hs, heq, hlast, fun bytes hreturned => ?_⟩
  obtain ⟨r, hr, -, ⟨-, hok⟩, hbytes, -⟩ := hread [65] bytes hreturned
  rw [heq] at hr
  rcases List.mem_cons.mp hr with rfl | hr
  · cases hok
  · rw [hbytes, List.mem_singleton.mp hr]
    rfl

/-- What the cache has for a name. -/
def contents (s : SharedCache ι) (filename : List Byte) : List Byte :=
  ((s.sections.shared.hash filename).map fun iops => iops.rbuffer.unread).getD []

/-- All that is ever returned for a name is the same. -/
theorem contents_of_returned {ls : List (CacheLabel ι)} {s : SharedCache ι}
    (hrun : run step init ls = some s) {filename bytes : List Byte}
    (h : s.Returned filename bytes) : bytes = s.contents filename := by
  obtain ⟨i, hmem⟩ := h
  obtain ⟨iops, hfile, hbytes⟩ := (consistent_of_run hrun).returned i filename bytes hmem
  rw [contents, hfile]
  exact hbytes.symm

end SharedCache

/-! ## The server

The callbacks of `file_transfer`, with what `lazyload` returns as the file. The result on one
connection is that of `FileServer`; what is new is that all connections, in whatever loop, speak of
the same file. -/

/-- Two functions that agree on the requested name are as good as each other. -/
theorem Env.ServesFiles.congr {file content : List Byte → List Byte} {past : Byte} {env : Env}
    (h : env.ServesFiles file past)
    (heq : ∀ name, requested past (deliver env.script.reads).bytes = some name →
      file name = content name) : env.ServesFiles content past := by
  refine ⟨h.onAccept, h.onConnect, ?_, h.onWriteComplete, h.onClosed⟩
  obtain ⟨arrivals, file', hcb, hfile⟩ := h.onReadComplete
  exact ⟨arrivals, file', hcb, fun name hreq => (hfile name hreq).trans (heq name hreq)⟩

/-- The file that is asked for is one that `lazyload` has returned. -/
def Env.FromCache {ι : Type} (s : SharedCache ι) (past : Byte) (env : Env) : Prop :=
  ∃ file, env.ServesFiles file past ∧
    ∀ name, requested past (deliver env.script.reads).bytes = some name →
      s.Returned name (file name)

variable {ι : Type} [DecidableEq ι] {κ : Type}

/-- What a loop of the server has been through: its callbacks close well, and have the files from
the cache. -/
structure ServedFrom (s : SharedCache ι) (past : Byte) (ls : List ReactorLabel) (r : Reactor) :
    Prop where
  run : run Reactor.step Reactor.init ls = some r
  ok : AllSteps Reactor.step (Meets fun v h env => env.FromCache s past ∧ v.ClosesWell h env)
    Reactor.init ls

/-- What a connection that the server has closed has been sent was returned by `lazyload`. -/
theorem ServedFrom.returned {past : Byte} {cls : List (CacheLabel ι)} {s : SharedCache ι}
    (hcache : Cppev.run SharedCache.step SharedCache.init cls = some s) {ls : List ReactorLabel}
    {r : Reactor} (h : ServedFrom s past ls r) {c : ConnId} (hc : c ∈ r.world.born)
    (hclosed : .closed ∈ r.world.trace c) :
    ∃ name, request past (r.world.trace c) = some name ∧
      s.Returned name (sentBytes (r.world.trace c)) := by
  have hsent : ∀ content : List Byte → List Byte,
      (∀ name bytes, s.Returned name bytes → bytes = content name) →
        ∃ name, request past (r.world.trace c) = some name ∧
          sentBytes (r.world.trace c) = content name := by
    intro content hcontent
    have hserves : AllSteps Reactor.step
        (Meets fun v h env => env.ServesFiles content past ∧ v.ClosesWell h env)
        Reactor.init ls := by
      refine h.ok.and (fun _ _ hmeets _ => hmeets.mono ?_) h.ok
      rintro v hd env ⟨⟨file, hfile, hreturned⟩, hwell⟩
      exact ⟨hfile.congr fun name hreq => hcontent name _ (hreturned name hreq), hwell⟩
    exact (account_of_run hserves h.run hc).sent hclosed
  have hcontents : ∀ name bytes, s.Returned name bytes → bytes = s.contents name :=
    fun _ _ hreturned => SharedCache.contents_of_returned hcache hreturned
  obtain ⟨name, hname, hbytes⟩ := hsent s.contents hcontents
  refine ⟨name, hname, ?_⟩
  -- of a file that was not returned, nothing is known; so it may as well be one byte longer
  by_contra hnot
  have hnone : ∀ bytes, ¬ s.Returned name bytes := by
    intro bytes hreturned
    apply hnot
    rw [hbytes, ← hcontents name bytes hreturned]
    exact hreturned
  obtain ⟨name', hname', hlonger⟩ := hsent
    (Function.update s.contents name (0 :: s.contents name)) fun name' bytes hreturned => by
      rcases eq_or_ne name' name with rfl | hne
      · exact absurd hreturned (hnone bytes)
      · rw [Function.update_of_ne hne]
        exact hcontents name' bytes hreturned
  obtain rfl : name = name' := Option.some.inj (hname.symm.trans hname')
  rw [Function.update_self, hbytes] at hlonger
  exact absurd (congrArg List.length hlonger) (by simp)

/-- **One file for all.** Whatever the loops of the server, their clients and the file system do,
and in whatever order: a connection that the server has closed has been sent the bytes of the one
reading of the file that it asked for; two of them, of the same loop or of two, that asked for the
same file have been sent the same bytes. -/
theorem file_servers_agree {past : Byte} {cls : List (CacheLabel ι)} {s : SharedCache ι}
    (hcache : run SharedCache.step SharedCache.init cls = some s) {ls : κ → List ReactorLabel}
    {r : κ → Reactor} (h : ∀ k, ServedFrom s past (ls k) (r k)) :
    (∀ k, ∀ c ∈ (r k).world.born, .closed ∈ (r k).world.trace c →
      ∃ name reads, request past ((r k).world.trace c) = some name ∧ (name, reads) ∈ s.loads ∧
        sentBytes ((r k).world.trace c) = (deliver reads).bytes) ∧
      ∀ k k', ∀ c ∈ (r k).world.born, ∀ c' ∈ (r k').world.born,
        .closed ∈ (r k).world.trace c → .closed ∈ (r k').world.trace c' →
        request past ((r k).world.trace c) = request past ((r k').world.trace c') →
          sentBytes ((r k).world.trace c) = sentBytes ((r k').world.trace c') := by
  constructor
  · intro k c hc hclosed
    obtain ⟨name, hname, hreturned⟩ := (h k).returned hcache hc hclosed
    obtain ⟨i, hmem⟩ := hreturned
    obtain ⟨reads, -, hload, hbytes, -⟩ := (SharedCache.consistent_of_run hcache).loaded hmem
    exact ⟨name, reads, hname, hload, hbytes⟩
  · intro k k' c hc c' hc' hclosed hclosed' hsame
    obtain ⟨name, hname, hreturned⟩ := (h k).returned hcache hc hclosed
    obtain ⟨name', hname', hreturned'⟩ := (h k').returned hcache hc' hclosed'
    obtain rfl : name = name' := Option.some.inj (hname.symm.trans (hsame.trans hname'))
    rw [SharedCache.contents_of_returned hcache hreturned,
      SharedCache.contents_of_returned hcache hreturned']

omit [DecidableEq ι] in
/-- A loop that is served from a cache with the file `A`. -/
theorem exists_servedFrom {s : SharedCache ι} (h : s.Returned [65] [1, 2, 65]) {taken : Nat}
    (htaken : taken = 1 ∨ taken = 2) :
    ∃ ls r, ServedFrom s 0 ls r ∧ 0 ∈ r.world.born ∧ .closed ∈ r.world.trace 0 ∧
      request 0 (r.world.trace 0) = some [65] := by
  let content : List Byte → List Byte := fun name => 1 :: 2 :: name
  have hend : ((run Reactor.step Reactor.init (askForFile content taken)).any fun r =>
      decide (0 ∈ r.world.born) && decide (.closed ∈ r.world.trace 0) &&
        request 0 (r.world.trace 0) = some [65]) = true := by
    rcases htaken with rfl | rfl <;> decide +kernel
  obtain ⟨r, hr, heq⟩ := (Option.any_eq_true ..).mp hend
  simp only [Bool.and_eq_true, decide_eq_true_eq] at heq
  obtain ⟨⟨hborn, hclosed⟩, hrequest⟩ := heq
  have hwell : AllSteps Reactor.step (Meets fun v h env => v.ClosesWell h env) Reactor.init
      (askForFile content taken) := by
    rcases htaken with rfl | rfl <;> decide +kernel
  have hcache : AllSteps Reactor.step (Meets fun _ _ env => env.FromCache s 0) Reactor.init
      (askForFile content taken) := by
    refine allSteps_of_forall (fun l hl => meets_of_env fun i env heq => ?_) _
    subst heq
    simp only [askForFile, List.mem_cons, ReactorLabel.dispatch.injEq, reduceCtorEq, false_or,
      List.not_mem_nil, or_false] at hl
    have hasks : requested 0 (deliver [.bytes [65, 10]]).bytes = some [65] := by decide
    have hsilent : requested 0 (deliver []).bytes = none := by decide
    refine ⟨content, ?_, ?_⟩
    · rcases hl with ⟨-, rfl⟩ | ⟨-, rfl⟩ | ⟨-, rfl⟩ <;> exact servesFiles_fileServer _ _
    · intro name hreq
      rcases hl with ⟨-, rfl⟩ | ⟨-, rfl⟩ | ⟨-, rfl⟩
      · cases hsilent.symm.trans hreq
      · obtain rfl : [65] = name := Option.some.inj (hasks.symm.trans hreq)
        exact h
      · cases hsilent.symm.trans hreq
  exact ⟨_, r, ⟨hr, hcache.and (fun _ _ => Meets.and) hwell⟩, hborn, hclosed, hrequest⟩

/-- The clients of two loops ask for the file `A`. -/
theorem file_servers_agree_askForFile :
    ∃ r : Bool → Reactor,
      (∀ k, request 0 ((r k).world.trace 0) = some [65] ∧ .closed ∈ (r k).world.trace 0) ∧
        sentBytes ((r false).world.trace 0) = sentBytes ((r true).world.trace 0) := by
  obtain ⟨s, hs, hreturned⟩ := SharedCache.exists_askTwice
  obtain ⟨ls, r, hserved, hborn, hclosed, hrequest⟩ := exists_servedFrom hreturned (.inl rfl)
  obtain ⟨ls', r', hserved', hborn', hclosed', hrequest'⟩ := exists_servedFrom hreturned (.inr rfl)
  have hall : ∀ k, ServedFrom s 0 (bif k then ls' else ls) (bif k then r' else r) :=
    Bool.forall_bool.mpr ⟨hserved, hserved'⟩
  have hsame := (file_servers_agree hs hall).2 false true 0 hborn 0 hborn' hclosed hclosed'
    (hrequest.trans hrequest'.symm)
  exact ⟨fun k => bif k then r' else r,
    Bool.forall_bool.mpr ⟨⟨hrequest, hclosed⟩, ⟨hrequest', hclosed'⟩⟩, hsame⟩

end Cppev
