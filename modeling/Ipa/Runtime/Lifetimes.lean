import Ipa.Lib.Script

/-!
# What a schema and a pool acquire

The resources of `kc_ipa_open`, `kc_mmap_open` and `kc_emb_open`, from the structs themselves to
the contexts and the threads of the workers, and the scripts of these routines and of those that
release them again, with what they read of the mapping and of the indexes on the way. The scripts
take every way: each call may fail, each test of the data in between may turn out either way. A
routine gets the scripts of its caller for its success and its failure.
-/

namespace Ipa

namespace Lifetime

/-- The pointers of `kc_emb_ctx_t`. -/
inductive Field
  | vocab
  | vocabHash
  | layers
  | computeBuf
  | tokens
  | posData
  | typeData
  | normInput
  | galloc
  | backend
  | gguf
  | ggml
deriving DecidableEq, Repr

inductive Resource
  /-- The context of worker `i`. -/
  | ectx (i : ℕ)
  /-- The file that the model is read from. -/
  | file (i : ℕ)
  | field (i : ℕ) (k : Field)
  | mutex (i : ℕ)
  | condReq (i : ℕ)
  | condRes (i : ℕ)
  | thread (i : ℕ)
  | pool
  | workers
  | poolMutex
  | poolCond
  | schema
  | path
  | lock
  | fd
  | mapping
  | nodeHnsw
  | childHnsw
  | handlers
deriving DecidableEq, Repr

inductive Event
  /-- Callers use the pool with its `n` workers, and what a call of them reads besides. -/
  | serve (n : ℕ) (parsed : List Resource)
  /-- The routine itself reads these, or writes them. -/
  | access (rs : List Resource)
  /-- Worker `i` is told to stop. -/
  | shutdown (i : ℕ)
deriving DecidableEq, Repr

abbrev Routine : Type := Script Resource Event

/-! ## Dependencies -/

/-- The order of `kc_emb_ctx_free`. -/
def freed : List Field :=
  [.vocab, .vocabHash, .layers, .computeBuf, .tokens, .posData, .typeData, .normInput, .galloc,
    .backend, .gguf, .ggml]

/-- The pointers that `kc_emb_ctx_open` leaves set. -/
def opened (k : Field) : Bool := k ≠ .normInput

/-- What a pointer of the context points into. -/
def Field.needs : Field → List Field
  | .vocab => [.gguf]
  | .vocabHash => [.gguf]
  | .layers => [.ggml]
  | .galloc => [.backend]
  | _ => []

/-- What has to be there as long as a resource is. -/
def needs : Resource → List Resource
  | .ectx _ => [.workers]
  | .file _ => []
  | .field i k => .ectx i :: k.needs.map (.field i)
  | .mutex _ | .condReq _ | .condRes _ => [.workers]
  | .thread i => [.workers, .ectx i, .mutex i, .condReq i, .condRes i] ++
      (freed.filter opened).map (.field i)
  | .pool | .schema => []
  | .workers | .poolMutex | .poolCond => [.pool]
  | .path | .lock | .fd | .mapping | .nodeHnsw | .childHnsw | .handlers => [.schema]

/-- What the calls in a pool of `n` workers use. -/
def serving (n : ℕ) : List Resource :=
  [.pool, .workers, .poolMutex, .poolCond] ++
    (List.range n).flatMap fun i => [.mutex i, .condReq i, .condRes i, .thread i]

def rules : Rules Resource Event where
  needs := needs
  uses
    | .serve n parsed => serving n ++ parsed
    | .access rs => rs
    | .shutdown i => [.workers, .mutex i, .condReq i, .thread i]
  after
    | .thread i => [.shutdown i]
    | _ => []

/-- Tests of what is read, one after the other. -/
def readTests (rs : List Resource) (ok fail : Routine) : ℕ → Routine
  | 0 => ok
  | n + 1 => .event (.access rs) (.branch (readTests rs ok fail n) fail)

/-! ## The context of a worker -/

/-- `kc_emb_ctx_free`. -/
def ctxFree (i : ℕ) (has : Field → Bool) (rest : Routine) : Routine :=
  Script.drops has (.field i) (.release (.ectx i) rest) freed

def set (has : Field → Bool) (k : Field) : Field → Bool := fun k' => if k' = k then true else has k'

/-- Allocations that are tested together, behind the last one. -/
def callocs (i : ℕ) (cont : (Field → Bool) → Routine) : List Field → (Field → Bool) → Routine
  | [], has => cont has
  | k :: ks, has => .acquire (.field i k) (callocs i cont ks (set has k)) (callocs i cont ks has)

/-- `ggml_backend_cpu_init`, `ggml_gallocr_new`. -/
def ctxOpenBackend (i : ℕ) (ok fail : Routine) (has : Field → Bool) : Routine :=
  .acquire (.field i .backend)
    (.acquire (.field i .galloc) ok (ctxFree i (set has .backend) fail))
    (ctxFree i has fail)

/-- The buffers. -/
def ctxOpenBuffers (i : ℕ) (ok fail : Routine) (has : Field → Bool) : Routine :=
  .acquire (.field i .computeBuf)
    (callocs i (fun has =>
        if has .tokens && has .posData && has .typeData then ctxOpenBackend i ok fail has
        else ctxFree i has fail)
      [.tokens, .posData, .typeData] (set has .computeBuf))
    (ctxFree i has fail)

/-- The tensors of the model, and of its `nLayer` layers. -/
def ctxOpenTensors (i nLayer : ℕ) (ok fail : Routine) (has : Field → Bool) : Routine :=
  .branch
    (.acquire (.field i .layers)
      (Script.tests (ctxOpenBuffers i ok fail (set has .layers))
        (ctxFree i (set has .layers) fail) nLayer)
      (ctxFree i has fail))
    (ctxFree i has fail)

/-- The vocabulary: the key is there, it is not empty. -/
def ctxOpenVocab (i nLayer : ℕ) (ok fail : Routine) (has : Field → Bool) : Routine :=
  .branch
    (.branch
      (.acquire (.field i .vocab)
        (.acquire (.field i .vocabHash)
          (ctxOpenTensors i nLayer ok fail (set (set has .vocab) .vocabHash))
          (.release (.field i .vocab) (ctxFree i has fail)))
        (ctxFree i has fail))
      (ctxFree i has fail))
    (ctxFree i has fail)

/-- `kc_emb_ctx_open`. `gguf_init_from_file_ptr` gives both of its contexts or none. -/
def ctxOpen (i nLayer : ℕ) (ok fail : Routine) : Routine :=
  .acquire (.ectx i)
    (.acquire (.file i)
      (let null : Routine := .release (.file i) (ctxFree i (fun _ => false) fail)
      let has := set (set (fun _ => false) .gguf) .ggml
      .acquire (.field i .gguf)
        (.acquire (.field i .ggml)
          (.release (.file i)
            -- the dimensions
            (.branch (ctxOpenVocab i nLayer ok fail has) (ctxFree i has fail)))
          (.release (.field i .gguf) null))
        null)
      (.release (.ectx i) fail))
    fail

/-! ## Workers and the pool -/

/-- `kc_emb_worker_init`. -/
def workerInit (i nLayer : ℕ) (ok fail : Routine) : Routine :=
  ctxOpen i nLayer
    (.acquire (.mutex i)
      (.acquire (.condReq i)
        (.acquire (.condRes i)
          (.acquire (.thread i) ok
            (.release (.condRes i) (.release (.condReq i) (.release (.mutex i)
              (ctxFree i opened fail)))))
          (.release (.condReq i) (.release (.mutex i) (ctxFree i opened fail))))
        (.release (.mutex i) (ctxFree i opened fail)))
      (ctxFree i opened fail))
    fail

/-- `kc_emb_worker_destroy`; the thread is released when it is joined. -/
def workerDestroy (i : ℕ) (rest : Routine) : Routine :=
  .event (.shutdown i) (.release (.thread i) (.release (.condRes i) (.release (.condReq i)
    (.release (.mutex i) (ctxFree i opened rest)))))

/-- The loop of `kc_emb_open`, which stops at the first worker that cannot be started. -/
def startWorkers (nLayer : ℕ) (started : ℕ → Routine) : ℕ → ℕ → Routine
  | 0, i => started i
  | left + 1, i => workerInit i nLayer (startWorkers nLayer started left (i + 1)) (started i)

/-- `kc_emb_open`, for any number of workers. -/
def embOpen (nWorkers nLayer : ℕ) (ok : ℕ → Routine) (fail : Routine) : Routine :=
  .acquire .pool
    (.acquire .workers
      (.acquire .poolMutex
        (.acquire .poolCond
          (startWorkers nLayer (fun started =>
              if started = 0 then
                .release .poolCond (.release .poolMutex (.release .workers (.release .pool fail)))
              else ok started)
            nWorkers 0)
          (.release .poolMutex (.release .workers (.release .pool fail))))
        (.release .workers (.release .pool fail)))
      (.release .pool fail))
    fail

def destroyWorkers (rest : Routine) : ℕ → ℕ → Routine
  | 0, _ => rest
  | left + 1, i => workerDestroy i (destroyWorkers rest left (i + 1))

/-- `kc_emb_close`. -/
def embClose (nWorkers : ℕ) (rest : Routine) : Routine :=
  destroyWorkers (.release .poolCond (.release .poolMutex (.release .workers (.release .pool rest))))
    nWorkers 0

/-! ## The mapping -/

/-- `kc_mmap_t`: is `data` set, is `fd` one. -/
structure Map where
  data : Bool
  fd : Bool

/-- `kc_mmap_open`. An empty file is not mapped, and closed at once. -/
def mmapOpen (ok : Map → Routine) (fail : Routine) : Routine :=
  .acquire .fd
    (.branch
      (.branch
        (.release .fd (ok ⟨false, false⟩))
        (.acquire .mapping (ok ⟨true, true⟩) (.release .fd fail)))
      (.release .fd fail))
    fail

/-- `kc_mmap_close`. -/
def mmapClose (map : Map) (rest : Routine) : Routine :=
  Script.drop map.data .mapping (Script.drop map.fd .fd rest)

/-! ## A schema -/

/-- `kc_ipa_build_hnsw` over the rows of a block; what the index itself owns is freed with it. -/
def buildHnsw (index : Resource) (rows : ℕ) (ok fail : Routine) : Routine :=
  .event (.access [.mapping]) (.acquire index
    (if rows = 0 then ok
    else
      let close : Routine := .release index fail
      -- the reservation; the entry, its label and its place in the index, for each row; the build
      readTests [index] (readTests [.mapping, index] (readTests [index] ok close 1) close (3 * rows))
        close 1)
    fail)

/-- What `kc_ipa_close` finds in the struct; `emb` are the workers of the pool. -/
structure Fields where
  nodeHnsw : Bool
  childHnsw : Bool
  emb : Option ℕ
  map : Map
  handlers : Bool

/-- `kc_ipa_close`, with `kc_ipa_options_free`. -/
def ipaClose (s : Fields) (rest : Routine) : Routine :=
  let last : Routine := mmapClose s.map (.release .lock (.release .path
    (Script.drop s.handlers .handlers (.release .schema rest))))
  Script.drop s.nodeHnsw .nodeHnsw (Script.drop s.childHnsw .childHnsw
    (match s.emb with
    | some n => embClose n last
    | none => last))

/-- The sizes of what is opened. -/
structure Sizes where
  nWorkers : ℕ
  nLayer : ℕ
  nodeRows : ℕ
  childRows : ℕ

/-- `kc_ipa_open` behind the pool: the dimension, the indexes, the tables. -/
def ipaOpenIndex (sizes : Sizes) (s : Fields) (ok : Fields → Routine) (fail : Routine) : Routine :=
  let tables (s : Fields) : Routine := readTests [.mapping] (ok s) (ipaClose s fail) 2
  readTests [.pool, .mapping]
    (buildHnsw .nodeHnsw sizes.nodeRows
      (let s : Fields := { s with nodeHnsw := true }
      if sizes.childRows = 0 then tables s
      else buildHnsw .childHnsw sizes.childRows (tables { s with childHnsw := true })
        (ipaClose s fail))
      (ipaClose s fail))
    (ipaClose s fail) 1

/-- `kc_ipa_open`, with the number of the workers that were started. -/
def ipaOpen (sizes : Sizes) (ok : ℕ → Fields → Routine) (fail : Routine) : Routine :=
  .acquire .schema
    (.acquire .path
      (.acquire .lock
        (let s : Fields := ⟨false, false, none, ⟨false, false⟩, false⟩
        mmapOpen (fun map =>
            let s : Fields := { s with map }
            -- a file without bytes is smaller than the header
            if map.data then
              .branch
                -- the magic, the version, the size in the header, the strings
                (readTests [.mapping]
                  (embOpen sizes.nWorkers sizes.nLayer
                    (fun n => ipaOpenIndex sizes { s with emb := some n } (ok n) fail)
                    (ipaClose s fail))
                  (ipaClose s fail) 4)
                (ipaClose s fail)
            else ipaClose s fail)
          (ipaClose s fail))
        (.release .path (.release .schema fail)))
      (.release .schema fail))
    fail

/-! ## Whole lives -/

/-- A pool from `kc_emb_open` to `kc_emb_close`. -/
def poolLife (nWorkers nLayer : ℕ) : Routine :=
  embOpen nWorkers nLayer (fun n => .event (.serve n []) (embClose n .done)) .done

/-- What a call of `kc_ipa_parse` reads or locks besides the pool. -/
def Fields.parsed (s : Fields) : List Resource :=
  [.schema, .lock, .mapping, .nodeHnsw] ++ if s.childHnsw then [.childHnsw] else []

/-- A schema from `kc_ipa_open` to `kc_ipa_close`; a signal handler may be registered. -/
def schemaLife (sizes : Sizes) : Routine :=
  ipaOpen sizes (fun n s =>
    let used (s : Fields) : Routine := .event (.serve n s.parsed) (ipaClose s .done)
    .branch (.acquire .handlers (used { s with handlers := true }) (used s)) (used s)) .done

end Lifetime

end Ipa
