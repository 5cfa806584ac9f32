import IW4x.Gdk.Vtable

/-!
# The interfaces of the runtime

What is published: the interfaces with their functions, each with its slot, the slots that are
declined, the two GUIDs under which an interface is found, and the families of features it makes up.
-/

namespace IW4x.Gdk

open Vtable

structure Guid where
  data1 : BitVec 32
  data2 : BitVec 16
  data3 : BitVec 16
  data4 : Vector (BitVec 8) 8
  deriving DecidableEq

structure Published (F : Type*) extends Interface F where
  api : Guid
  id : Guid
  /-- Empty where the type has none. -/
  features : List (BitVec 32)

/-! ## The values of `feature` that an interface names -/

def featureAsync : BitVec 32 := 2
def featureAsyncProvider : BitVec 32 := 3
def featureGameInvite : BitVec 32 := 6
def featureGameSave : BitVec 32 := 7
def featureGameUi : BitVec 32 := 8
def featureNetworking : BitVec 32 := 10
def featureStore : BitVec 32 := 14
def featureSystem : BitVec 32 := 15
def featureTaskQueue : BitVec 32 := 16
def featureUser : BitVec 32 := 18
def featureError : BitVec 32 := 19

/-! ## The interfaces -/

inductive SlotFunction where
  | getStatus | getResultSize | cancel | providerBegin | schedule | complete | getResult
  | precall | queueCreate | queueCreateComposite | queueGetPort | queueDuplicateHandle
  | queueDispatch | queueCloseHandle | queueSubmitCallback | queueSubmitDelayedCallback
  | queueTerminate | queueGetCurrentProcess | queueSetCurrentProcess | isFeatureAvailable
  | registerForEvent | unregisterForEvent | initializeProviderAsync | initializeProviderResult
  | closeProvider | enumerateContainerInfo | createContainer | closeContainer | readBlobDataAsync
  | readBlobData | createUpdate | closeUpdate | submitBlobWrite | submitUpdateAsync
  | submitUpdate | showPlayerPickerAsync | showPlayerPickerResult | querySecurityInformationAsync
  | querySecurityInformationResultSize | querySecurityInformationResult | verifyServerCertificate
  | getConnectivityHint | registerConnectivityChanged | unregisterConnectivityChanged
  | createContext | closeContextHandle | queryGameLicenseAsync | queryGameLicenseResult
  | getXboxLiveSandboxId | duplicateHandle | closeHandle | compare | addAsync | addResult
  | getLocalId | getId | getIsGuest | getState | getAgeGroup | checkPrivilege
  | resolvePrivilegeAsync | resolvePrivilegeResult | getTokenAndSignatureAsync
  | getTokenAndSignatureResultSize | getTokenAndSignatureResult | registerForChange
  | unregisterForChange | getGamertag
  deriving DecidableEq

def slotted (f : SlotFunction) (o : Hex.Unsigned 8) : Member SlotFunction := ⟨f, true, true, [o]⟩

def slottedTwice (f : SlotFunction) (o o' : Hex.Unsigned 8) : Member SlotFunction :=
  ⟨f, true, true, [o, o']⟩

def xasync : Published SlotFunction where
  label := ascii "XAsync/XTaskQueue"
  members := [slotted .getStatus 0x18, slotted .getResultSize 0x20, slotted .cancel 0x28,
    slotted .providerBegin 0x38, slotted .schedule 0x48, slotted .complete 0x50,
    slotted .getResult 0x58, slotted .precall 0xE8, slotted .queueCreate 0x60,
    slotted .queueCreateComposite 0x68, slotted .queueGetPort 0x70,
    slotted .queueDuplicateHandle 0x78, slotted .queueDispatch 0x80,
    slotted .queueCloseHandle 0x88, slotted .queueSubmitCallback 0x90,
    slotted .queueSubmitDelayedCallback 0x98, slotted .queueTerminate 0xB0,
    slotted .queueGetCurrentProcess 0xC8, slotted .queueSetCurrentProcess 0xD0]
  declined := []
  declinedFalse := []
  api := ⟨0x073B7DCB, 0x1FCF, 0x4030, #v[0x94, 0xBE, 0xE3, 0xC9, 0xEB, 0x62, 0x34, 0x28]⟩
  id := ⟨0x073B7DCB, 0x1FCF, 0x4030, #v[0x94, 0xBE, 0xE3, 0xC9, 0xEB, 0x62, 0x34, 0x28]⟩
  features := [featureAsync, featureAsyncProvider, featureTaskQueue]

def xruntimeFeature : Published SlotFunction where
  label := ascii "XGameRuntimeFeature"
  members := [slotted .isFeatureAvailable 0x18]
  declined := []
  declinedFalse := []
  api := ⟨0x8836FE87, 0xEDB9, 0x4FE3, #v[0x8D, 0xAD, 0x05, 0xF0, 0xD2, 0xCD, 0x5B, 0x40]⟩
  id := ⟨0x8836FE87, 0xEDB9, 0x4FE3, #v[0x8D, 0xAD, 0x05, 0xF0, 0xD2, 0xCD, 0x5B, 0x40]⟩
  features := []

def xgameInvite : Published SlotFunction where
  label := ascii "XGameInvite"
  members := [slotted .registerForEvent 0x18, slotted .unregisterForEvent 0x20]
  declined := []
  declinedFalse := []
  api := ⟨0x0651AAE2, 0x4012, 0x4077, #v[0xBF, 0x84, 0x8B, 0x90, 0x97, 0x09, 0x0E, 0x2C]⟩
  id := ⟨0x0651AAE2, 0x4012, 0x4077, #v[0xBF, 0x84, 0x8B, 0x90, 0x97, 0x09, 0x0E, 0x2C]⟩
  features := [featureGameInvite]

def xgameSave : Published SlotFunction where
  label := ascii "XGameSave"
  members := [slotted .initializeProviderAsync 0x20, slotted .initializeProviderResult 0x28,
    slotted .closeProvider 0x30, slotted .enumerateContainerInfo 0x70,
    slotted .createContainer 0x80, slotted .closeContainer 0x88, slotted .readBlobDataAsync 0xA8,
    slotted .readBlobData 0xB0, slotted .createUpdate 0xB8, slotted .closeUpdate 0xC0,
    slotted .submitBlobWrite 0xC8, slotted .submitUpdateAsync 0xE0, slotted .submitUpdate 0xE8]
  declined := []
  declinedFalse := []
  api := ⟨0x704C3F58, 0xE629, 0x4CC2, #v[0xB1, 0x97, 0x30, 0x51, 0x1B, 0x99, 0x6F, 0xE2]⟩
  id := ⟨0x704C3F58, 0xE629, 0x4CC2, #v[0xB1, 0x97, 0x30, 0x51, 0x1B, 0x99, 0x6E, 0xE2]⟩
  features := [featureGameSave]

def xgameUi : Published SlotFunction where
  label := ascii "XGameUi"
  members := [slotted .showPlayerPickerAsync 0x58, slotted .showPlayerPickerResult 0x68]
  declined := []
  declinedFalse := []
  api := ⟨0xDFCD4649, 0x4FF8, 0x4043, #v[0xBA, 0x07, 0x35, 0xD6, 0x07, 0xDF, 0x98, 0xB0]⟩
  id := ⟨0x36A03122, 0x9EA3, 0x4A3A, #v[0xA8, 0xA4, 0x89, 0x9C, 0xFD, 0x85, 0xD7, 0xDB]⟩
  features := [featureGameUi]

def xnetworking : Published SlotFunction where
  label := ascii "XNetworking"
  members := [slottedTwice .querySecurityInformationAsync 0x40 0x58,
    slottedTwice .querySecurityInformationResultSize 0x48 0x60,
    slottedTwice .querySecurityInformationResult 0x50 0x68,
    slotted .verifyServerCertificate 0x70, slotted .getConnectivityHint 0x78,
    slotted .registerConnectivityChanged 0x80, slotted .unregisterConnectivityChanged 0x88]
  declined := []
  declinedFalse := []
  api := ⟨0x37E56907, 0x2F10, 0x41E8, #v[0xB7, 0x2F, 0x36, 0xED, 0xB1, 0x85, 0x33, 0x1A]⟩
  id := ⟨0xBF2346B2, 0x39AF, 0x4658, #v[0xB5, 0xEA, 0x44, 0x71, 0x3C, 0x7E, 0x83, 0xB3]⟩
  features := [featureNetworking]

def xstore : Published SlotFunction where
  label := ascii "XStore"
  members := [slotted .createContext 0x18, slotted .closeContextHandle 0x20,
    slotted .queryGameLicenseAsync 0xE0, slotted .queryGameLicenseResult 0xE8]
  declined := [0x48, 0x50, 0x78, 0x88, 0x98, 0xA0, 0xA8, 0xB8, 0xD0, 0xD8]
  declinedFalse := [0x80, 0xB0]
  api := ⟨0x0DD112AC, 0x7C24, 0x448C, #v[0xB9, 0x2B, 0x39, 0x60, 0xFB, 0x5B, 0xD3, 0x0C]⟩
  id := ⟨0x5C48DEDF, 0x0B67, 0x4492, #v[0xA4, 0xB5, 0x68, 0x29, 0xB8, 0xE7, 0x96, 0xE1]⟩
  features := [featureStore]

def xsystem : Published SlotFunction where
  label := ascii "XSystem"
  members := [slotted .getXboxLiveSandboxId 0x20]
  declined := []
  declinedFalse := []
  api := ⟨0xE349BD1A, 0xFC20, 0x4E40, #v[0xB9, 0x9C, 0x41, 0x78, 0xCC, 0x6B, 0x40, 0x9F]⟩
  id := ⟨0xDADC2895, 0x34B0, 0x4EF5, #v[0xA8, 0x3E, 0x45, 0x11, 0x4D, 0x62, 0x9B, 0x80]⟩
  features := [featureSystem, featureError]

def xuser : Published SlotFunction where
  label := ascii "XUser"
  members := [slotted .duplicateHandle 0x18, slotted .closeHandle 0x20, slotted .compare 0x28,
    slotted .addAsync 0x38, slotted .addResult 0x40, slotted .getLocalId 0x48, slotted .getId 0x58,
    slotted .getIsGuest 0x68, slotted .getState 0x70, slotted .getAgeGroup 0x98,
    slotted .checkPrivilege 0xA0, slotted .resolvePrivilegeAsync 0xA8,
    slotted .resolvePrivilegeResult 0xB0, slotted .getTokenAndSignatureAsync 0xB8,
    slotted .getTokenAndSignatureResultSize 0xC0, slotted .getTokenAndSignatureResult 0xC8,
    slotted .registerForChange 0x108, slotted .unregisterForChange 0x110]
  declined := []
  declinedFalse := []
  api := ⟨0x01ACD177, 0x91F9, 0x4763, #v[0xA3, 0x8E, 0xCC, 0xBB, 0x55, 0xCE, 0x32, 0xE0]⟩
  id := ⟨0x079415E3, 0x6727, 0x437F, #v[0x8E, 0x9D, 0x8F, 0x8F, 0x9B, 0x24, 0x39, 0xF7]⟩
  features := [featureUser]

def xuserGamertag : Published SlotFunction where
  label := ascii "XUser (gamertag)"
  members := [slotted .getGamertag 0x18]
  declined := []
  declinedFalse := []
  api := xuser.api
  id := ⟨0xCEF4FAC0, 0x7676, 0x4A94, #v[0xA1, 0x19, 0x4C, 0x43, 0xF9, 0xEB, 0x5B, 0x74]⟩
  features := []

def xpackage : Published SlotFunction where
  label := ascii "XPackage"
  members := []
  declined := [0x58, 0xB0, 0xC8, 0xD0, 0x128, 0x130, 0x138, 0x140]
  declinedFalse := []
  api := ⟨0xAF406016, 0xE850, 0x4AA8, #v[0xA8, 0x8D, 0x2F, 0x3D, 0xCB, 0x9D, 0xAC, 0x7E]⟩
  id := ⟨0xE2A4734B, 0x2F4A, 0x456D, #v[0xAA, 0x8F, 0xD0, 0x65, 0xE0, 0x4F, 0xB2, 0x09]⟩
  features := []

def xgameEvent : Published SlotFunction where
  label := ascii "XGameEvent"
  members := []
  declined := [0x18]
  declinedFalse := []
  api := ⟨0xBBFBDCC7, 0xBFE7, 0x409B, #v[0xA5, 0xCA, 0xED, 0xF0, 0x54, 0x96, 0x0B, 0x4D]⟩
  id := ⟨0xBBFBDCC7, 0xBFE7, 0x409B, #v[0xA5, 0xCA, 0xED, 0xF0, 0x54, 0x96, 0x0B, 0x4D]⟩
  features := []

def xunidentified : Published SlotFunction where
  label := ascii "unidentified 2549F142"
  members := []
  declined := [0x18]
  declinedFalse := []
  api := ⟨0x973A344E, 0x24BF, 0x4D0F, #v[0x84, 0x57, 0x56, 0xC5, 0x34, 0x89, 0x2B, 0x29]⟩
  id := ⟨0x2549F142, 0x6419, 0x4A06, #v[0x97, 0xB5, 0x93, 0x1A, 0xAB, 0x7C, 0x2F, 0x34]⟩
  features := []

/-- `runtime`, the types of the catalog. -/
def runtime : List (Published SlotFunction) :=
  [xasync, xruntimeFeature, xgameInvite, xgameSave, xgameUi, xnetworking, xstore, xsystem, xuser,
    xuserGamertag, xpackage, xgameEvent, xunidentified]

end IW4x.Gdk
