/-
The interface both generations share: a `readByte` request, with the kernel's answer should its page
have to be read, and the response. A response is judged by the byte the backing store holds at the
virtual address (`Delivers`).
-/
import UnixSysProg.Vmm.PhysicalMemory

namespace UnixSysProg.Vmm

/-- What a `readByte` call answers; an out-parameter it did not write is `none`. -/
structure Response where
  status : Int
  physicalAddress : Option PhysicalAddress
  byte : Option Byte
  deriving DecidableEq

/-- The counters a manager keeps. -/
structure Counters where
  pagefaults : Int32
  pagehits : Int32
  tlbhits : Int32
  pagelookups : Int32
  deriving DecidableEq

/-- One request: the address, and how the kernel answers should the page have to be read. -/
structure Request where
  address : VirtualAddress
  io : IoOutcome

/-- A request the kernel serves: the seek succeeds and the read is willing to fill the buffer. -/
def Request.served (address : VirtualAddress) : Request := ⟨address, .ok, .count pageSize, fun _ => 0⟩

theorem Request.served_succeeds (address : VirtualAddress) : (Request.served address).io.Succeeds :=
  ⟨rfl, pageSize, rfl, le_refl _⟩

/-- The page a request is for. -/
def Request.page (r : Request) : PageNumber := getPageNumberFromLogicalAddress r.address

/-- What `readByte` makes of the outcome of `translate`. -/
def respond (physicalMemory : PhysicalMemory) : Option PhysicalAddress → Response
  | none => ⟨statusFailure, none, none⟩
  | some physicalAddress =>
    match physicalMemory.readByte physicalAddress with
    | none => ⟨statusFailure, some physicalAddress, none⟩
    | some byte => ⟨statusSuccess, some physicalAddress, some byte⟩

/-- The response of a successful call: translated into `frameno`, and the byte of the frame. -/
def Response.ofFrame (frames : FrameNumber → Page) (frameno : FrameNumber) (address : VirtualAddress) : Response where
  status := statusSuccess
  physicalAddress := some (physicalAddressOf frameno (getOffsetFromLogicalAddress address))
  byte := some (frames frameno ⟨getOffsetFromLogicalAddress address, getOffsetFromLogicalAddress_lt address⟩)

def Response.failed : Response := ⟨statusFailure, none, none⟩

theorem respond_ofFrame (pm : PhysicalMemory) (f : FrameNumber) (address : VirtualAddress) :
    respond pm (some (physicalAddressOf f (getOffsetFromLogicalAddress address))) = .ofFrame pm.frames f address := by
  simp only [respond, PhysicalMemory.readByte_physicalAddressOf pm f (getOffsetFromLogicalAddress_lt address)]
  rfl

/-! ## What a request should deliver -/

/-- The kernel reads the page of the request in full from the file. -/
def Request.Reads (f : StoreFile) (r : Request) : Prop := r.io.ReadsAll ⟨some f⟩ (r.page.val * pageSize)

theorem page_in_store {f : StoreFile} (hf : 65536 ≤ f.size) (p : PageNumber) : p.val * pageSize + pageSize ≤ f.size := by
  have := p.isLt
  show p.val * 256 + 256 ≤ f.size
  omega

/-- Over a store of at least 65536 bytes, calls that succeed read the page. -/
theorem Request.reads_of_succeeds {f : StoreFile} (hf : 65536 ≤ f.size) {r : Request} (hr : r.io.Succeeds) : r.Reads f :=
  hr.readsAll (page_in_store hf _)

theorem Request.Reads.succeeds {f : StoreFile} {r : Request} (h : r.Reads f) : r.io.Succeeds :=
  IoOutcome.ReadsAll.succeeds h

/-- The response is a success with the store's byte at the virtual address. -/
def Delivers (f : StoreFile) (r : Request) (resp : Response) : Prop :=
  resp.status = statusSuccess ∧ resp.byte = some (f.byte r.address.toNat)

/-- Reading a frame that holds the request's page delivers the store's byte. -/
theorem delivers_ofFrame {f : StoreFile} {r : Request} {frames : FrameNumber → Page} {g : FrameNumber}
    (h : frames g = f.page (r.page.val * pageSize)) : Delivers f r (.ofFrame frames g r.address) := by
  refine ⟨rfl, ?_⟩
  simp only [Response.ofFrame, h, StoreFile.page]
  rw [show r.page.val * pageSize + getOffsetFromLogicalAddress r.address = r.address.toNat from
    page_offset_eq r.address]

end UnixSysProg.Vmm
