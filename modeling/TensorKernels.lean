import TensorKernels.Main
import TensorKernels.Proofs.Configuration.RowEdits
import TensorKernels.Proofs.Description.ReadBack
import TensorKernels.Proofs.Description.References
import TensorKernels.Proofs.Diagnostic.Positions
import TensorKernels.Proofs.Index.DeviceLoop
import TensorKernels.Proofs.Index.FewestParentheses
import TensorKernels.Proofs.Kernel.FingerprintContent
import TensorKernels.Proofs.Kernel.LabelsRead
import TensorKernels.Proofs.Kernel.OutlineTemplate
import TensorKernels.Proofs.Kernel.ProgramText
import TensorKernels.Proofs.Lowering.EarlyBinding
import TensorKernels.Proofs.Lowering.NamesTaken
import TensorKernels.Proofs.Lowering.ShownKernel
import TensorKernels.Proofs.Metadata.InjectionRuns
