import OscAssignments.Files.Reversal
import OscAssignments.Lib.FileTree

namespace Reversal
open Runs FileTree

def folder : Bytes := [65,115,115,105,103,110,109,101,110,116]

def fileNameSizeLimit : Nat := 400

def nameStart (inFileName : Bytes) : Nat → Nat
  | 0 => 0
  | len + 1 => if inFileName[len]? = some slash then len + 1 else nameStart inFileName len

def lastComponent (inFileName : Bytes) : Bytes :=
  inFileName.drop (nameStart inFileName inFileName.length)

def outPath (inFileName : Bytes) : Bytes := folder ++ slash :: lastComponent inFileName

def outFileName (inFileName : Bytes) : Except Fault Bytes :=
  if fileNameSizeLimit ≤ (lastComponent inFileName).length ∨
    fileNameSizeLimit ≤ (outPath inFileName).length then .error .bufferOverrun
  else .ok (outPath inFileName)

def makeFolder (fs : Fs) : Fs :=
  match fs.namei folder with
  | .found _ => fs
  | _ => fs.mkdirIn fs.cwd folder

structure Drive where
  fs : Fs
  inPos : Nat
  outPos : Nat
  buf : Buffer
  progress : List Int

section Loop
variable (fdIn fdOut : Inode)

def chunkOn (p : Plan) (i : Int) (d : Drive) : Except Fault Drive := do
  let (f,buf) ← read ⟨d.fs.content fdIn,d.inPos⟩ d.buf p.multiplePrintStep.toNat
  let buf ← reverse buf (toInt p.multiplePrintStep)
  let data ← write [] buf p.multiplePrintStep.toNat
  let fs := d.fs.setContent fdOut (pwrite (d.fs.content fdOut) d.outPos data)
  let f := lseek f (-2 * p.multiplePrintStep) .cur
  let job ← writeProgress p i ⟨f,buf,data,d.progress⟩
  pure ⟨fs,f.pos,d.outPos + data.length,buf,job.progress⟩

def chunksOn (p : Plan) : Nat → Int → Drive → Except Fault Drive
  | 0, i, d => if i < p.steps then .error .outOfFuel else .ok d
  | n + 1, i, d =>
    if i < p.steps then do
      let d ← chunkOn fdIn fdOut p i d
      chunksOn p n (toInt (i + 1)) d
    else .ok d

def restOn (p : Plan) (d : Drive) : Except Fault Drive := do
  let left := toInt (p.fileSize - p.steps * p.multiplePrintStep)
  let (f,buf) ← read (lseek ⟨d.fs.content fdIn,d.inPos⟩ 0 .set) d.buf left.toNat
  let buf ← reverse buf left
  let data ← write [] buf left.toNat
  let fs := d.fs.setContent fdOut (pwrite (d.fs.content fdOut) d.outPos data)
  pure ⟨fs,f.pos,d.outPos + data.length,buf,d.progress ++ [100]⟩

def startOn (p : Plan) (junk : Nat → UInt8) (fs : Fs) : Drive :=
  ⟨fs,(lseek ⟨fs.content fdIn,0⟩ (-p.multiplePrintStep) .fromEnd).pos,0,
    (List.range p.multiplePrintStep.toNat).map junk,[]⟩

def reverseOnto (fuel : Nat) (junk : Nat → UInt8) (fileSize : Nat) (fs : Fs) :
    Except Fault Drive := do
  let p := plan fileSize
  let d ← chunksOn fdIn fdOut p fuel 0 (startOn fdIn p junk fs)
  restOn fdIn fdOut p d

end Loop

def main (fuel : Nat) (junk : Nat → UInt8) (fs : Fs) (inFileName : Bytes) :
    Except Fault (Int × Fs) := do
  let fs := makeFolder fs
  let out ← outFileName inFileName
  match fs.openRead inFileName with
  | none => .ok (1,fs)
  | some fdIn =>
    match fs.openWrite out with
    | none => .ok (1,fs)
    | some (fdOut,fs') => do
      let d ← reverseOnto fdIn fdOut fuel junk (fs.content fdIn).length fs'
      .ok (0,d.fs)

structure Kept (path : Bytes) (i : Inode) (bytes : Bytes) (fs : Fs) : Prop where
  input : fs.content i = bytes
  output : fs.contentOf (outPath path) = some bytes.reverse

def KeepsInput (fs : Fs) (path : Bytes) (i : Inode) (bytes : Bytes) : Prop :=
  ∀ junk, ∃ fuel code fs', main fuel junk fs path = .ok (code,fs') ∧ Kept path i bytes fs'

section Names
variable {s : Bytes}

theorem nameStart_le (n : Nat) : nameStart s n ≤ n := by
  induction n with
  | zero => exact le_rfl
  | succ n ih =>
    rw [nameStart]
    split_ifs
    · exact le_rfl
    · omega

theorem nameStart_free {n j : Nat} (h : nameStart s n ≤ j) (hj : j < n) : s[j]? ≠ some slash := by
  induction n with
  | zero => omega
  | succ n ih =>
    rw [nameStart] at h
    split_ifs at h with hs
    · omega
    · rcases Nat.lt_succ_iff_lt_or_eq.mp hj with hj | rfl
      · exact ih h hj
      · exact hs

theorem nameStart_slash {n : Nat} (h : 0 < nameStart s n) :
    s[nameStart s n - 1]? = some slash := by
  induction n with
  | zero => exact absurd h (lt_irrefl 0)
  | succ n ih =>
    rw [nameStart] at h ⊢
    split_ifs at h ⊢ with hs
    · exact hs
    · exact ih h

theorem lastComponent_free (c : UInt8) (hc : c ∈ lastComponent s) : c ≠ slash := by
  obtain ⟨j,hj,rfl⟩ := List.getElem_of_mem hc
  intro he
  simp only [lastComponent,List.length_drop] at hj
  have hfree := nameStart_free (s := s) (n := s.length)
    (j := nameStart s s.length + j) (by omega) (by omega)
  simp only [lastComponent,List.getElem_drop] at he
  exact hfree (by rw [List.getElem?_eq_getElem (by omega),he])

theorem lastComponent_mem (h : lastComponent s ≠ []) : lastComponent s ∈ components s := by
  have hword : Tokens.tokens (fun c => decide (c = slash)) (lastComponent s) = [lastComponent s] :=
    Tokens.tokens_word h fun c hc => by simpa using lastComponent_free c hc
  refine List.mem_append_left _ ?_
  rcases Nat.eq_zero_or_pos (nameStart s s.length) with h0 | hpos
  · have hs : lastComponent s = s := by rw [lastComponent,h0,List.drop_zero]
    rw [hs] at hword ⊢
    rw [hword]
    exact List.mem_singleton_self _
  · have hle := nameStart_le (s := s) s.length
    have hsl := nameStart_slash hpos
    rw [List.getElem?_eq_getElem (by omega)] at hsl
    have hsplit : s = s.take (nameStart s s.length - 1) ++ slash :: lastComponent s := by
      have hd := List.drop_eq_getElem_cons (l := s) (i := nameStart s s.length - 1) (by omega)
      rw [Option.some.inj hsl,show nameStart s s.length - 1 + 1 = nameStart s s.length by omega] at hd
      rw [lastComponent,← hd,List.take_append_drop]
    rw [hsplit,Tokens.tokens_append_cons _ _ (by simp)]
    rw [← hsplit,hword]
    exact List.mem_append_right _ (List.mem_singleton_self _)

theorem outFileName_ok {fs : Fs} {i : Inode} (h : fs.namei s = .found i) :
    outFileName s = .ok (outPath s) := by
  have hlen : (lastComponent s).length ≤ 255 := by
    rcases eq_or_ne (lastComponent s) [] with he | hne
    · rw [he]
      exact Nat.zero_le _
    · exact namei_short h _ (lastComponent_mem hne)
  unfold outFileName fileNameSizeLimit
  rw [if_neg]
  simp only [outPath,folder,List.length_append,List.length_cons,List.length_nil]
  omega

end Names

section Apart
variable {fdIn fdOut : Inode} {fs : Fs} {bytes : Bytes} {p : Plan} {i : Int} {d : Drive} {job job' : Job}

structure Tracks (fdIn fdOut : Inode) (fs : Fs) (bytes : Bytes) (d : Drive) (job : Job) : Prop where
  input : d.fs.content fdIn = bytes
  file : job.fdIn = ⟨bytes,d.inPos⟩
  out : ∃ perms, d.fs.fileAt fdOut = some (job.fdOut,perms)
  outPos : d.outPos = job.fdOut.length
  buf : job.buf = d.buf
  progress : job.progress = d.progress
  grows : Grows fs d.fs

theorem write_append {out data : Bytes} {buf : Buffer} {n : Nat} (h : write out buf n = .ok data) :
    ∃ more, write [] buf n = .ok more ∧ data = out ++ more := by
  unfold write at h ⊢
  split_ifs at h ⊢
  cases h
  exact ⟨_,rfl,rfl⟩

theorem writeProgress_frame (h : writeProgress p i job = .ok job') :
    job' = { job with progress := job'.progress } ∧
      ∀ other : Job, other.progress = job.progress →
        writeProgress p i other = .ok { other with progress := job'.progress } := by
  unfold writeProgress at h ⊢
  obtain ⟨rem,hrem,h⟩ := bind_eq_ok.mp h
  simp only [hrem,ok_bind]
  split_ifs at h ⊢
  · obtain ⟨percent,hpercent,h⟩ := bind_eq_ok.mp h
    cases h
    refine ⟨rfl,?_⟩
    intro other ho
    rw [hpercent,ok_bind,ho]
    rfl
  · cases h
    refine ⟨rfl,?_⟩
    intro other ho
    rw [← ho]
    rfl

theorem read_file {f f' : Input} {buf buf' : Buffer} {n : Nat} (h : read f buf n = .ok (f',buf')) :
    f'.bytes = f.bytes := by
  unfold read at h
  split_ifs at h
  cases h
  rfl

theorem lseek_file (f : Input) (offset : Int) (w : Whence) : (lseek f offset w).bytes = f.bytes := by
  unfold lseek
  split_ifs
  · rfl
  · rfl

theorem input_eq {f : Input} (h : f.bytes = bytes) : f = ⟨bytes,f.pos⟩ := by
  rw [← h]

theorem append_output (hne : fdIn ≠ fdOut) {perms : Perms} {out : Bytes} {dfs : Fs}
    (ho : dfs.fileAt fdOut = some (out,perms)) (more : Bytes) :
    (dfs.setContent fdOut (pwrite (dfs.content fdOut) out.length more)).fileAt fdOut =
        some (out ++ more,perms) ∧
      (dfs.setContent fdOut (pwrite (dfs.content fdOut) out.length more)).content fdIn =
        dfs.content fdIn := by
  constructor
  · rw [fileAt_setContent_self ho,content_of_fileAt ho,pwrite_end]
  · rw [Fs.content,fileAt_setContent_ne hne,← Fs.content]

theorem chunkOn_tracks (hne : fdIn ≠ fdOut) (h : Tracks fdIn fdOut fs bytes d job)
    (hc : chunk p i job = .ok job') :
    ∃ d', chunkOn fdIn fdOut p i d = .ok d' ∧ Tracks fdIn fdOut fs bytes d' job' := by
  obtain ⟨perms,ho⟩ := h.out
  unfold chunk at hc
  obtain ⟨⟨f,b⟩,hread,hc⟩ := bind_eq_ok.mp hc
  obtain ⟨b',hrev,hc⟩ := bind_eq_ok.mp hc
  obtain ⟨out,hwrite,hc⟩ := bind_eq_ok.mp hc
  obtain ⟨more,hmore,rfl⟩ := write_append hwrite
  obtain ⟨hjob,hprog⟩ := writeProgress_frame hc
  obtain ⟨hout,hin⟩ := append_output hne ho more
  rw [h.file,h.buf] at hread
  unfold chunkOn
  rw [h.input,hread,ok_bind]
  simp only [hrev,ok_bind,hmore]
  rw [hprog _ h.progress.symm,ok_bind]
  refine ⟨_,rfl,?_,?_,?_,?_,?_,?_,?_⟩
  · rw [h.outPos,hin,h.input]
  · rw [hjob]
    exact input_eq ((lseek_file f _ _).trans (read_file hread))
  · rw [hjob,h.outPos]
    exact ⟨perms,hout⟩
  · rw [hjob,h.outPos]
    simp
  · rw [hjob]
  · rfl
  · exact h.grows.trans (grows_setContent _ _ _)

theorem chunksOn_tracks (hne : fdIn ≠ fdOut) {n : Nat} (h : Tracks fdIn fdOut fs bytes d job)
    (hc : chunks p n i job = .ok job') :
    ∃ d', chunksOn fdIn fdOut p n i d = .ok d' ∧ Tracks fdIn fdOut fs bytes d' job' := by
  induction n generalizing i d job with
  | zero =>
    unfold chunks at hc
    unfold chunksOn
    split_ifs at hc ⊢
    cases hc
    exact ⟨d,rfl,h⟩
  | succ n ih =>
    unfold chunks at hc
    unfold chunksOn
    split_ifs at hc ⊢
    · obtain ⟨job1,h1,hc⟩ := bind_eq_ok.mp hc
      obtain ⟨d1,hd1,ht1⟩ := chunkOn_tracks hne h h1
      obtain ⟨d2,hd2,ht2⟩ := ih ht1 hc
      exact ⟨d2,by rw [hd1,ok_bind,hd2],ht2⟩
    · cases hc
      exact ⟨d,rfl,h⟩

theorem restOn_tracks (hne : fdIn ≠ fdOut) (h : Tracks fdIn fdOut fs bytes d job)
    (hc : rest p job = .ok job') :
    ∃ d', restOn fdIn fdOut p d = .ok d' ∧ Tracks fdIn fdOut fs bytes d' job' := by
  obtain ⟨perms,ho⟩ := h.out
  unfold rest at hc
  obtain ⟨⟨f,b⟩,hread,hc⟩ := bind_eq_ok.mp hc
  obtain ⟨b',hrev,hc⟩ := bind_eq_ok.mp hc
  obtain ⟨out,hwrite,hc⟩ := bind_eq_ok.mp hc
  obtain ⟨more,hmore,rfl⟩ := write_append hwrite
  obtain ⟨hout,hin⟩ := append_output hne ho more
  cases hc
  rw [h.file,h.buf] at hread
  unfold restOn
  rw [h.input]
  simp only [hread,ok_bind,hrev,hmore]
  refine ⟨_,rfl,?_,?_,?_,?_,?_,?_,?_⟩
  · rw [h.outPos,hin,h.input]
  · exact input_eq ((read_file hread).trans (lseek_file _ 0 .set))
  · rw [h.outPos]
    exact ⟨perms,hout⟩
  · rw [h.outPos]
    simp
  · rfl
  · rw [h.progress]
  · exact h.grows.trans (grows_setContent _ _ _)

theorem startOn_tracks {perms : Perms} (hin : fs.content fdIn = bytes)
    (hout : fs.fileAt fdOut = some ([],perms)) (junk : Nat → UInt8) :
    Tracks fdIn fdOut fs bytes (startOn fdIn p junk fs)
      ⟨lseek ⟨bytes,0⟩ (-p.multiplePrintStep) .fromEnd,
        (List.range p.multiplePrintStep.toNat).map junk,[],[]⟩ := by
  refine ⟨hin,?_,⟨perms,hout⟩,rfl,rfl,rfl,.refl fs⟩
  simp only [startOn,hin]
  exact input_eq (lseek_file _ _ _)

theorem reverseOnto_tracks (hne : fdIn ≠ fdOut) {perms : Perms} (hin : fs.content fdIn = bytes)
    (hout : fs.fileAt fdOut = some ([],perms)) (hsteps : (plan bytes.length).steps < 2 ^ 31)
    (junk : Nat → UInt8) :
    ∃ fuel d job, reverseOnto fdIn fdOut fuel junk bytes.length fs = .ok d ∧
      Tracks fdIn fdOut fs bytes d job ∧ job.fdOut = bytes.reverse := by
  obtain ⟨step,steps,hp⟩ := planned_of_steps hsteps
  obtain ⟨job1,h1,hr1⟩ := chunks_ok hp steps (zero_add steps) (reversed_init hp junk)
  obtain ⟨job2,h2,hrev⟩ := rest_ok hp hr1
  obtain ⟨d1,hd1,ht1⟩ := chunksOn_tracks hne (startOn_tracks hin hout junk) h1
  obtain ⟨d2,hd2,ht2⟩ := restOn_tracks hne ht1 h2
  refine ⟨steps,d2,job2,?_,ht2,hrev⟩
  rw [Nat.cast_zero] at hd1
  rw [reverseOnto,hd1,ok_bind,hd2]

end Apart

section Aliased
variable {fdIn fdOut o : Inode} {fs : Fs} {p : Plan} {d d' : Drive} {c : UInt8} {i : Int}

theorem chunkOn_ok (h : chunkOn fdIn fdOut p i d = .ok d') : ∃ data pos buf progress,
    d' = ⟨d.fs.setContent fdOut (pwrite (d.fs.content fdOut) d.outPos data),pos,
      d.outPos + data.length,buf,progress⟩ := by
  unfold chunkOn at h
  obtain ⟨⟨f,b⟩,-,h⟩ := bind_eq_ok.mp h
  obtain ⟨b',-,h⟩ := bind_eq_ok.mp h
  obtain ⟨data,-,h⟩ := bind_eq_ok.mp h
  obtain ⟨job,-,h⟩ := bind_eq_ok.mp h
  cases h
  exact ⟨_,_,_,_,rfl⟩

theorem restOn_ok (h : restOn fdIn fdOut p d = .ok d') : ∃ data pos buf progress,
    d' = ⟨d.fs.setContent fdOut (pwrite (d.fs.content fdOut) d.outPos data),pos,
      d.outPos + data.length,buf,progress⟩ := by
  unfold restOn at h
  obtain ⟨⟨f,b⟩,-,h⟩ := bind_eq_ok.mp h
  obtain ⟨b',-,h⟩ := bind_eq_ok.mp h
  obtain ⟨data,-,h⟩ := bind_eq_ok.mp h
  cases h
  exact ⟨_,_,_,_,rfl⟩

structure Headed (o : Inode) (c : UInt8) (d : Drive) : Prop where
  file : ∃ bytes perms, d.fs.fileAt o = some (bytes,perms) ∧ bytes[0]? = some c ∧
    d.outPos ≤ bytes.length
  outPos : 0 < d.outPos

theorem Headed.put (h : Headed o c d) (data : Bytes) (pos : Nat) (buf : Buffer)
    (progress : List Int) :
    Headed o c ⟨d.fs.setContent o (pwrite (d.fs.content o) d.outPos data),pos,
      d.outPos + data.length,buf,progress⟩ := by
  obtain ⟨bytes,perms,hf,hc,hle⟩ := h.file
  rw [content_of_fileAt hf]
  refine ⟨⟨_,perms,fileAt_setContent_self hf _,?_,length_pwrite hle data⟩,?_⟩
  · rw [pwrite_head h.outPos hle,hc]
  · exact Nat.lt_add_right _ h.outPos

theorem chunksOn_headed {n : Nat} (h : Headed o c d) (hc : chunksOn fdIn o p n i d = .ok d') :
    Headed o c d' := by
  induction n generalizing i d with
  | zero =>
    unfold chunksOn at hc
    split_ifs at hc
    cases hc
    exact h
  | succ n ih =>
    unfold chunksOn at hc
    split_ifs at hc
    · obtain ⟨d1,h1,hc⟩ := bind_eq_ok.mp hc
      obtain ⟨data,pos,buf,progress,rfl⟩ := chunkOn_ok h1
      exact ih (h.put data pos buf progress) hc
    · cases hc
      exact h

theorem chunkOn_headed {step : Nat} {perms : Perms} (hpos : 0 < step) (hle : step ≤ 1000000)
    (hstep : p.multiplePrintStep = step) (hf : fs.fileAt o = some ([],perms))
    (h : chunkOn o o p i (startOn o p (fun _ => c) fs) = .ok d') : Headed o c d' := by
  have hbuf : (List.range step).map (fun _ => c) = List.replicate step c := by simp
  have hread : ∀ pos, read ⟨[],pos⟩ (List.replicate step c) step =
      .ok (⟨[],pos⟩,List.replicate step c) := by
    intro pos
    simp [read]
  have hrev : reverse (List.replicate step c) step = .ok (List.replicate step c) := by
    rw [reverse_ok (by simp)]
    simp
  have hwrite : write [] (List.replicate step c) step = .ok (List.replicate step c) := by
    rw [write_ok (by simp)]
    simp
  have hint : toInt step = step := toInt_eq (by omega) (by norm_num; omega)
  unfold chunkOn startOn at h
  simp only [hstep,Int.toNat_natCast,hbuf,content_of_fileAt hf,hread,hint,ok_bind,hrev,
    hwrite] at h
  obtain ⟨job,-,h⟩ := bind_eq_ok.mp h
  cases h
  refine ⟨⟨_,perms,fileAt_setContent_self hf _,?_,?_⟩,?_⟩
  · simp [pwrite,hpos.ne',hpos]
  · simpa using length_pwrite (Nat.zero_le ([] : Bytes).length) (List.replicate step c)
  · simpa using hpos

theorem steps_pos {n : Nat} (hn : 0 < n) : 0 < (plan n).steps := by
  obtain ⟨step,hs,hpos,-⟩ := step_bounds ((n : Int) / 1000)
  have hmin : min ((n : Int) / 1000) 1000000 ≤ n := by
    have hle := toInt_le (x := (n : Int) / 1000) (by omega)
    unfold min
    split
    · omega
    · omega
  have hstep : step ≤ n := by
    unfold max at hs
    split at hs
    · omega
    · omega
  simp only [plan,hs]
  rw [← Int.natCast_div]
  exact_mod_cast Nat.div_pos hstep hpos

theorem reverseOnto_headed {n fuel : Nat} {perms : Perms} (hn : 0 < n)
    (hf : fs.fileAt o = some ([],perms))
    (h : reverseOnto o o fuel (fun _ => c) n fs = .ok d) : Headed o c d := by
  obtain ⟨step,hs,hpos,hle⟩ := step_bounds ((n : Int) / 1000)
  unfold reverseOnto at h
  obtain ⟨d1,h1,h⟩ := bind_eq_ok.mp h
  obtain ⟨data,pos,buf,progress,rfl⟩ := restOn_ok h
  cases fuel with
  | zero =>
    rw [chunksOn,if_pos (steps_pos hn)] at h1
    cases h1
  | succ fuel =>
    rw [chunksOn,if_pos (steps_pos hn)] at h1
    obtain ⟨d0,h0,h1⟩ := bind_eq_ok.mp h1
    have hd0 := chunkOn_headed hpos hle (by simp only [plan,hs]) hf h0
    exact (chunksOn_headed hd0 h1).put data pos buf progress

theorem reverseOnto_destroys {bytes : Bytes} {perms : Perms} (hb : bytes ≠ [])
    (hf : fs.fileAt o = some ([],perms)) :
    ∃ junk, ∀ fuel d, reverseOnto o o fuel junk bytes.length fs = .ok d →
      d.fs.content o ≠ bytes := by
  obtain ⟨c,hc⟩ : ∃ c, bytes[0]? ≠ some c := by
    rcases eq_or_ne (bytes[0]?) (some 0) with h | h
    · exact ⟨1,by rw [h]; decide⟩
    · exact ⟨0,h⟩
  refine ⟨fun _ => c,?_⟩
  intro fuel d h he
  obtain ⟨bytes',perms',hf',hc',-⟩ :=
    (reverseOnto_headed (List.length_pos_of_ne_nil hb) hf h).file
  rw [content_of_fileAt hf'] at he
  exact hc (he ▸ hc')

theorem chunksOn_counts {n : Nat} (hi : i < 2 ^ 31) (h : chunksOn fdIn fdOut p n i d = .ok d') :
    p.steps < 2 ^ 31 := by
  induction n generalizing i d with
  | zero =>
    unfold chunksOn at h
    split_ifs at h
    omega
  | succ n ih =>
    unfold chunksOn at h
    split_ifs at h
    · obtain ⟨d1,-,h⟩ := bind_eq_ok.mp h
      exact ih (toInt_lt _) h
    · omega

theorem reverseOnto_empty {perms : Perms} (hf : fs.fileAt o = some ([],perms))
    (junk : Nat → UInt8) :
    ∃ d, reverseOnto o o 0 junk 0 fs = .ok d ∧ d.fs.fileAt o = some ([],perms) ∧
      Grows fs d.fs := by
  have hsteps : (plan 0).steps = 0 := by decide
  have hleft : toInt ((plan 0).fileSize - (plan 0).steps * (plan 0).multiplePrintStep) = 0 := by
    decide
  have hrev : ∀ b : Buffer, reverse b 0 = .ok b := by
    intro b
    exact (reverse_ok (Nat.zero_le b.length)).trans (by simp)
  have hchunks : chunksOn o o (plan 0) 0 0 (startOn o (plan 0) junk fs) =
      .ok (startOn o (plan 0) junk fs) := by
    rw [chunksOn,hsteps,if_neg (lt_irrefl 0)]
  simp only [reverseOnto,Nat.cast_zero,hchunks,ok_bind,restOn,hleft,read,Int.toNat_zero,
    Nat.not_lt_zero,if_false,List.take_zero,List.length_nil,List.nil_append,List.drop_zero,hrev,
    write,pure_eq_ok]
  refine ⟨_,rfl,?_,grows_setContent fs o _⟩
  rw [startOn,content_of_fileAt hf]
  exact fileAt_setContent_self hf []

end Aliased

section Runs
variable {fs : Fs} {path bytes : Bytes} {perms : Perms} {i o : Inode} {fs' : Fs}

def Separate (fs : Fs) (path : Bytes) (i : Inode) (bytes : Bytes) : Prop :=
  if ((makeFolder fs).openWrite (outPath path)).isSome then
    ((makeFolder fs).namei (outPath path) ≠ .found i ∨ bytes = []) ∧
      (plan bytes.length).steps < 2 ^ 31
  else (makeFolder fs).contentOf (outPath path) = some bytes.reverse

theorem grows_makeFolder (fs : Fs) : Grows fs (makeFolder fs) := by
  unfold makeFolder
  split
  · exact .refl fs
  · exact grows_mkdirIn fs fs.cwd folder

theorem fileAt_makeFolder (hf : fs.fileAt i = some (bytes,perms)) :
    (makeFolder fs).fileAt i = some (bytes,perms) := by
  unfold makeFolder
  split
  · exact hf
  · exact fileAt_mkdirIn hf

section Readable
variable (h : fs.namei path = .found i) (hf : fs.fileAt i = some (bytes,perms))
  (hr : perms.read = true)
include h hf hr

theorem main_refused (ho : (makeFolder fs).openWrite (outPath path) = none) (fuel : Nat)
    (junk : Nat → UInt8) : main fuel junk fs path = .ok (1,makeFolder fs) := by
  have hopen := openRead_some ((grows_makeFolder fs).namei h) (fileAt_makeFolder hf) hr
  unfold main
  rw [outFileName_ok h,ok_bind]
  simp only [hopen,ho]

theorem main_opened (ho : (makeFolder fs).openWrite (outPath path) = some (o,fs'))
    (fuel : Nat) (junk : Nat → UInt8) :
    main fuel junk fs path = (reverseOnto i o fuel junk bytes.length fs' >>= fun d => .ok (0,d.fs)) := by
  have hopen := openRead_some ((grows_makeFolder fs).namei h) (fileAt_makeFolder hf) hr
  unfold main
  rw [outFileName_ok h,ok_bind]
  simp only [hopen,ho,content_of_fileAt (fileAt_makeFolder hf)]

theorem main_opened_ok (ho : (makeFolder fs).openWrite (outPath path) = some (o,fs'))
    {fuel : Nat} {junk : Nat → UInt8} {code : Int} {fs'' : Fs}
    (hm : main fuel junk fs path = .ok (code,fs'')) :
    ∃ d, reverseOnto i o fuel junk bytes.length fs' = .ok d ∧ fs'' = d.fs := by
  rw [main_opened h hf hr ho] at hm
  obtain ⟨d,hd,hm⟩ := bind_eq_ok.mp hm
  cases hm
  exact ⟨d,hd,rfl⟩

theorem keeps_refused (ho : (makeFolder fs).openWrite (outPath path) = none) :
    KeepsInput fs path i bytes ↔
      (makeFolder fs).contentOf (outPath path) = some bytes.reverse := by
  constructor
  · intro hk
    obtain ⟨fuel,code,fs',hm,hkept⟩ := hk fun _ => 0
    rw [main_refused h hf hr ho] at hm
    cases hm
    exact hkept.output
  · intro hout junk
    exact ⟨0,1,makeFolder fs,main_refused h hf hr ho 0 junk,
      content_of_fileAt (fileAt_makeFolder hf),hout⟩

theorem keeps_apart (ho : (makeFolder fs).openWrite (outPath path) = some (o,fs'))
    (hne : i ≠ o) (hsteps : (plan bytes.length).steps < 2 ^ 31) : KeepsInput fs path i bytes := by
  obtain ⟨hname,⟨perms',hout⟩,hother⟩ := openWrite_some ho
  have hin : fs'.content i = bytes :=
    content_of_fileAt (hother i bytes perms hne (fileAt_makeFolder hf))
  intro junk
  obtain ⟨fuel,d,job,hd,ht,hrev⟩ := reverseOnto_tracks hne hin hout hsteps junk
  refine ⟨fuel,0,d.fs,?_,ht.input,?_⟩
  · rw [main_opened h hf hr ho,hd,ok_bind]
  · obtain ⟨perms'',hfinal⟩ := ht.out
    rw [hrev] at hfinal
    exact contentOf_of_found (ht.grows.namei hname) hfinal

theorem keeps_empty (ho : (makeFolder fs).openWrite (outPath path) = some (i,fs'))
    (hb : bytes = []) : KeepsInput fs path i bytes := by
  subst hb
  obtain ⟨hname,⟨perms',hout⟩,-⟩ := openWrite_some ho
  intro junk
  obtain ⟨d,hd,hfinal,hgrows⟩ := reverseOnto_empty hout junk
  refine ⟨0,0,d.fs,?_,content_of_fileAt hfinal,?_⟩
  · rw [main_opened h hf hr ho,List.length_nil,hd,ok_bind]
  · exact contentOf_of_found (hgrows.namei hname) hfinal

theorem steps_of_keeps (ho : (makeFolder fs).openWrite (outPath path) = some (o,fs'))
    (hk : KeepsInput fs path i bytes) : (plan bytes.length).steps < 2 ^ 31 := by
  obtain ⟨fuel,code,fs'',hm,-⟩ := hk fun _ => 0
  obtain ⟨d,hd,-⟩ := main_opened_ok h hf hr ho hm
  unfold reverseOnto at hd
  obtain ⟨d1,h1,-⟩ := bind_eq_ok.mp hd
  exact chunksOn_counts (by norm_num) h1

theorem not_keeps_aliased (ho : (makeFolder fs).openWrite (outPath path) = some (i,fs'))
    (hb : bytes ≠ []) : ¬ KeepsInput fs path i bytes := by
  intro hk
  obtain ⟨-,⟨perms',hout⟩,-⟩ := openWrite_some ho
  obtain ⟨junk,hjunk⟩ := reverseOnto_destroys hb hout
  obtain ⟨fuel,code,fs'',hm,hkept⟩ := hk junk
  obtain ⟨d,hd,rfl⟩ := main_opened_ok h hf hr ho hm
  exact hjunk fuel d hd hkept.input

end Readable

theorem main_keeps_input_iff (h : fs.namei path = .found i) (hf : fs.fileAt i = some (bytes,perms))
    (hr : perms.read = true) : KeepsInput fs path i bytes ↔ Separate fs path i bytes := by
  unfold Separate
  cases ho : (makeFolder fs).openWrite (outPath path) with
  | none =>
    rw [if_neg (by simp)]
    exact keeps_refused h hf hr ho
  | some r =>
    obtain ⟨o,fs'⟩ := r
    rw [if_pos Option.isSome_some,Ne,namei_openWrite (fileAt_makeFolder hf) ho]
    constructor
    · intro hk
      refine ⟨?_,steps_of_keeps h hf hr ho hk⟩
      rcases eq_or_ne o i with rfl | hne
      · refine .inr ?_
        by_contra hb
        exact not_keeps_aliased h hf hr ho hb hk
      · exact .inl hne
    · rintro ⟨hsep,hsteps⟩
      rcases eq_or_ne o i with rfl | hne
      · exact keeps_empty h hf hr ho (hsep.resolve_left fun hne => hne rfl)
      · exact keeps_apart h hf hr ho hne.symm hsteps

def shelf : Fs where
  node i := [.dir [([120],1),(folder,2)] ⟨true,true,true⟩,.file [97,98] ⟨true,true,false⟩,
    .dir [([dot,dot],0),([121],3)] ⟨true,true,true⟩,.file [97,98] ⟨true,true,false⟩][i]?
  next := 4
  root := 0
  cwd := 0
  masked := ⟨false,false,false⟩
  unused _ hi := List.getElem?_eq_none hi

theorem main_keeps_input_shelf :
    shelf.namei [120] = .found 1 ∧ shelf.fileAt 1 = some ([97,98],⟨true,true,false⟩) ∧
      KeepsInput shelf [120] 1 [97,98] := by
  have h : shelf.namei [120] = .found 1 := by decide +kernel
  have hf : shelf.fileAt 1 = some ([97,98],⟨true,true,false⟩) := by decide +kernel
  refine ⟨h,hf,(main_keeps_input_iff h hf rfl).mpr ?_⟩
  unfold Separate
  decide +kernel

theorem main_destroys_input :
    shelf.namei (folder ++ [slash,121]) = .found 3 ∧
      shelf.fileAt 3 = some ([97,98],⟨true,true,false⟩) ∧
      ¬ KeepsInput shelf (folder ++ [slash,121]) 3 [97,98] := by
  have h : shelf.namei (folder ++ [slash,121]) = .found 3 := by decide +kernel
  have hf : shelf.fileAt 3 = some ([97,98],⟨true,true,false⟩) := by decide +kernel
  have ho : ((makeFolder shelf).openWrite (outPath (folder ++ [slash,121]))).map Prod.fst =
      some 3 := by decide +kernel
  obtain ⟨⟨o,fs'⟩,ho,rfl⟩ := Option.map_eq_some_iff.mp ho
  exact ⟨h,hf,not_keeps_aliased h hf rfl ho (by simp)⟩

end Runs
end Reversal
